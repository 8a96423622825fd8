/- RxdOs/Fs/Message
   source: fs/fs.c (the lines sys_read and sys_write print), lib/printf.c (vfprintf)
   digest: What sys_read and sys_write say of the pages they move, and when such a printf comes
   back: the line fits the buffer of vfprintf, and the cursor stays in the video segment. -/

import RxdOs.Libk.Vfprintf
import RxdOs.Mm.Memory

set_option autoImplicit false
set_option relaxedAutoImplicit false

namespace RxdOs.Fs.Message

open RxdOs.Base.Assert RxdOs.Base.Int32 RxdOs.Libk.Str RxdOs.Libk.Itoa RxdOs.Libk.Itoaf
  RxdOs.Libk.Vsprintf RxdOs.Libk.Formatter RxdOs.Libk.Printk RxdOs.Libk.Vfprintf

open RxdOs.Lib.BlockCopy (stored)

open RxdOs.Mm.Memory (Mem allocPage freePage allocPage_iff freePage_iff lowMem nrPages)

def words (s : String) : List UInt8 := s.toList.map chr

def phrase (s : String) (h : (words s).Forall (· ≠ 0)) : Text :=
  ⟨words s, List.forall_iff_forall_mem.mp h⟩

def writeFormat : Text := phrase "sys_write(): write at %d, %d bytes, '%s'\n" (by decide)

def readFormat : Text := phrase "sys_read(): read at %d, %d bytes, '%s'\n" (by decide)

def cutFormat : Text := phrase "sys_read(): exceeds file end, truncate %d -> %d\n" (by decide)

/-- What is said of a page that has been read or is about to be written. -/
structure Transfer where
  fPos : Int
  bytes : Int
  page : Memory

def Transfer.args (t : Transfer) : List Arg :=
  [.int (Int32.ofInt t.fPos), .int (Int32.ofInt t.bytes), .str (textAt t.page 0)]

/-- The line about a page that begins with `head`; the page is printed up to its first NUL. -/
def Transfer.message (t : Transfer) (head : List UInt8) : List UInt8 :=
  head ++ numeral (Int32.ofInt t.fPos) 10 ++ words ", " ++ numeral (Int32.ofInt t.bytes) 10 ++
    words " bytes, '" ++ stringAt t.page 0 (2 ^ 32) ++ words "'\n"

def Transfer.writeText (t : Transfer) : List UInt8 := t.message (words "sys_write(): write at ")

def Transfer.readText (t : Transfer) : List UInt8 := t.message (words "sys_read(): read at ")

/-- The line about a read that goes past the end of the file. -/
def cutText (count cut : Int) : List UInt8 :=
  words "sys_read(): exceeds file end, truncate " ++ numeral (Int32.ofInt count) 10 ++
    words " -> " ++ numeral (Int32.ofInt cut) 10 ++ words "\n"

/-- What such a printf can do to its caller: it fails the assertion of vfprintf, or the cursor
leaves the video segment, or it comes back. -/
def printed (text : List UInt8) (scr : Screen) : Kernel Unit := do
  assert ((text.length : Int) ≤ bufferSize) "ret <= BUFFER_SIZE"
  let _ ← Libk.Printk.loop text (start scr)
  pure ()

/-- The line fits the buffer of vfprintf, and printk gets through it. -/
def Shown (text : List UInt8) (scr : Screen) : Prop :=
  text.length ≤ bufferSize ∧ ∃ r, Libk.Printk.loop text (start scr) = .ok r

/-- What a call finds: the frames, the content of the page alloc_page hands out, which is not
cleared, and the screen when `done` bytes have been moved, which other tasks write to as well. -/
structure Found where
  mem : Mem
  page : Memory
  screen : Nat → Screen

/-- Free frames, a page of zeros, and a blank screen all along. -/
def cleared : Found := ⟨⟨0xffffff, fun _ => 0⟩, fun _ => 0, fun _ => .blank⟩

/-- `buffer = alloc_page()` in front of `body` and `free_page(buffer)` behind it.  Other tasks may
count frames in between; free_page looks at the address alone. -/
def withPage {α : Type} (found : Found) (body : Kernel α) : Kernel α := do
  let (buffer, mem) ← allocPage found.mem
  let r ← body
  let _ ← freePage mem buffer
  pure r

/-- The lowest free frame lies below HIGH_MEMORY, and is not the last one, which free_page refuses. -/
def Found.Paged (found : Found) : Prop :=
  ∃ k, k + 1 < nrPages ∧ found.mem.memMap k = 0 ∧ (∀ j < k, found.mem.memMap j ≠ 0) ∧
    lowMem + k * Mm.Memory.pageSize < found.mem.highMemory

/-! ## The page -/

section Pages

variable {α : Type} {found : Found} {body : Kernel α} {r : α}

/-- With a page the call goes on as it would without asking for one. -/
theorem withPage_of (h : found.Paged) (body : Kernel α) : withPage found body = body := by
  obtain ⟨k, hk, hfree, hfirst, hhigh⟩ := h
  have hlt : k < nrPages := Nat.lt_of_succ_lt hk
  obtain ⟨mem, halloc⟩ := allocPage_iff.mpr ⟨k, hlt, rfl, hfree, hfirst, hhigh⟩
  obtain ⟨mem', hback⟩ := (freePage_iff (s := mem) hlt).mpr hk
  rw [withPage, halloc, ok_bind]
  dsimp only
  rw [hback]
  cases body with
  | error e => rfl
  | ok r => rfl

theorem withPage_eq_ok : withPage found body = .ok r ↔ found.Paged ∧ body = .ok r := by
  constructor
  · intro h
    obtain ⟨⟨buffer, mem⟩, halloc, h⟩ := bind_eq_ok.mp h
    obtain ⟨k, hk, rfl, hfree, hfirst, hhigh⟩ := allocPage_iff.mp ⟨mem, halloc⟩
    obtain ⟨r', hbody, h⟩ := bind_eq_ok.mp h
    obtain ⟨mem', hback, hr⟩ := bind_eq_ok.mp h
    obtain rfl := Except.ok.inj hr
    exact ⟨⟨k, (freePage_iff hk).mp ⟨mem', hback⟩, hfree, hfirst, hhigh⟩, hbody⟩
  · rintro ⟨hpaged, h⟩
    rw [withPage_of hpaged, h]

theorem withPage_map {β : Type} (found : Found) (body : Kernel α) (g : α → β) :
    (withPage found body).map g = withPage found (body.map g) := by
  rw [withPage, withPage]
  cases allocPage found.mem with
  | error e => rfl
  | ok x =>
    cases body with
    | error e => rfl
    | ok r =>
      rw [ok_bind, ok_bind]
      dsimp only
      cases freePage x.2 x.1 with
      | error e => rfl
      | ok mem => rfl

/-- What is done with the result may as well be done before the page goes back. -/
theorem withPage_bind {β : Type} (found : Found) (body : Kernel α) (g : α → β) :
    (withPage found body >>= fun r => .ok (g r)) = withPage found (body.map g) := by
  rw [← withPage_map]
  cases withPage found body with
  | error e => rfl
  | ok r => rfl

theorem cleared_paged : cleared.Paged :=
  ⟨0, by decide, rfl, fun j hj => absurd hj (Nat.not_lt_zero j), by decide⟩

end Pages

/-! ## The lines -/

section Lines

variable {mem : Memory} {buffer : Nat} {head : List UInt8}

/-- What a line is given, as it is printed: two numbers and the string in the page. -/
def Transfer.length (t : Transfer) : Nat :=
  (numeral (Int32.ofInt t.fPos) 10).length + (numeral (Int32.ofInt t.bytes) 10).length +
    (stringAt t.page 0 (2 ^ 32)).length

theorem Transfer.message_length (t : Transfer) (head : List UInt8) :
    (t.message head).length = t.length + (head.length + 13) := by
  have hcomma : (words ", ").length = 2 := rfl
  have hbytes : (words " bytes, '").length = 9 := rfl
  have hend : (words "'\n").length = 2 := rfl
  simp only [Transfer.message, Transfer.length, List.length_append, hcomma, hbytes, hend]
  omega

theorem writeText_length (t : Transfer) : t.writeText.length = t.length + 35 :=
  t.message_length _

theorem readText_length (t : Transfer) : t.readText.length = t.length + 33 :=
  t.message_length _

theorem transfer_length {page : Memory} {n : Nat} (hpage : Terminated page 0 n) (hn : n < 2 ^ 32)
    (fPos bytes : Int) : Transfer.length ⟨fPos, bytes, page⟩ =
      (numeral (Int32.ofInt fPos) 10).length + (numeral (Int32.ofInt bytes) 10).length + n := by
  have hstring : (stringAt page 0 (2 ^ 32)).length = n := by
    rw [← strlenLoop_eq_length]
    exact strlenLoop_eq hpage hn
  rw [Transfer.length, hstring]

theorem Transfer.message_noNul (t : Transfer) (hhead : ∀ c ∈ head, c ≠ 0) :
    ∀ c ∈ t.message head, c ≠ 0 := by
  have hnumeral : ∀ value, ∀ c ∈ numeral value 10, c ≠ 0 := fun value =>
    numeral_noNul value (by decide)
  have hcomma : ∀ c ∈ words ", ", c ≠ 0 := List.forall_iff_forall_mem.mp (by decide)
  have hbytes : ∀ c ∈ words " bytes, '", c ≠ 0 := List.forall_iff_forall_mem.mp (by decide)
  have hend : ∀ c ∈ words "'\n", c ≠ 0 := List.forall_iff_forall_mem.mp (by decide)
  simp only [Transfer.message, List.forall_mem_append]
  exact ⟨⟨⟨⟨⟨⟨hhead, hnumeral _⟩, hcomma⟩, hnumeral _⟩, hbytes⟩, stringAt_noNul⟩, hend⟩

theorem cutText_noNul (count cut : Int) : ∀ c ∈ cutText count cut, c ≠ 0 := by
  have hnumeral : ∀ value, ∀ c ∈ numeral value 10, c ≠ 0 := fun value =>
    numeral_noNul value (by decide)
  have hhead : ∀ c ∈ words "sys_read(): exceeds file end, truncate ", c ≠ 0 :=
    List.forall_iff_forall_mem.mp (by decide)
  have harrow : ∀ c ∈ words " -> ", c ≠ 0 := List.forall_iff_forall_mem.mp (by decide)
  have hend : ∀ c ∈ words "\n", c ≠ 0 := List.forall_iff_forall_mem.mp (by decide)
  simp only [cutText, List.forall_mem_append]
  exact ⟨⟨⟨⟨hhead, hnumeral _⟩, harrow⟩, hnumeral _⟩, hend⟩

theorem cutText_length (count cut : Int) : (cutText count cut).length ≤ 110 := by
  have hhead : (words "sys_read(): exceeds file end, truncate ").length = 39 := rfl
  have harrow : (words " -> ").length = 4 := rfl
  have hend : (words "\n").length = 1 := rfl
  have hcount := numeral_length (Int32.ofInt count) (show 1 < 10 by decide)
  have hcut := numeral_length (Int32.ofInt cut) (show 1 < 10 by decide)
  simp only [cutText, List.length_append, hhead, harrow, hend]
  omega

/-- The string in a page is an argument of vsprintf like any other. -/
theorem Transfer.plain (t : Transfer) : ∀ a ∈ t.args, Plain a := by
  have hpage : Plain (.str (textAt t.page 0)) := stringAt_le ..
  refine List.forall_mem_cons.mpr ⟨trivial, List.forall_mem_cons.mpr ⟨trivial, ?_⟩⟩
  exact List.forall_mem_cons.mpr ⟨hpage, fun a ha => absurd ha List.not_mem_nil⟩

theorem Transfer.spell (t : Transfer) {fmt : Text} (hhead : ∀ c ∈ head, c ≠ percent)
    (hfmt : fmt.chars = head ++ percent :: chr 'd' :: (words ", " ++ percent :: chr 'd' ::
      (words " bytes, '" ++ percent :: chr 's' :: (words "'\n" ++ [])))) :
    spell mem buffer fmt t.args = .ok { text := t.message head, args := [] } := by
  refine Spells.spell ?_
  rw [hfmt]
  have hcomma : ∀ c ∈ words ", ", c ≠ percent := List.forall_iff_forall_mem.mp (by decide)
  have hbytes : ∀ c ∈ words " bytes, '", c ≠ percent := List.forall_iff_forall_mem.mp (by decide)
  have hend : ∀ c ∈ words "'\n", c ≠ percent := List.forall_iff_forall_mem.mp (by decide)
  refine spells_text hhead (spells_conversion (by decide) (spellArg_int ..) ?_)
  refine spells_text hcomma (spells_conversion (by decide) (spellArg_int ..) ?_)
  refine spells_text hbytes (spells_conversion (by decide) (spellArg_str ..) ?_)
  exact spells_text hend spells_nil

theorem writeFormat_spell (t : Transfer) :
    spell mem buffer writeFormat t.args = .ok { text := t.writeText, args := [] } :=
  t.spell (List.forall_iff_forall_mem.mp (by decide)) rfl

theorem readFormat_spell (t : Transfer) :
    spell mem buffer readFormat t.args = .ok { text := t.readText, args := [] } :=
  t.spell (List.forall_iff_forall_mem.mp (by decide)) rfl

theorem cutFormat_spell (count cut : Int) :
    spell mem buffer cutFormat [.int (Int32.ofInt count), .int (Int32.ofInt cut)] =
      .ok { text := cutText count cut, args := [] } := by
  have hhead : ∀ c ∈ words "sys_read(): exceeds file end, truncate ", c ≠ percent :=
    List.forall_iff_forall_mem.mp (by decide)
  have harrow : ∀ c ∈ words " -> ", c ≠ percent := List.forall_iff_forall_mem.mp (by decide)
  have hend : ∀ c ∈ words "\n", c ≠ percent := List.forall_iff_forall_mem.mp (by decide)
  have hfmt : cutFormat.chars = words "sys_read(): exceeds file end, truncate " ++
      percent :: chr 'd' :: (words " -> " ++ percent :: chr 'd' :: (words "\n" ++ [])) := rfl
  refine Spells.spell ?_
  rw [hfmt]
  refine spells_text hhead (spells_conversion (by decide) (spellArg_int ..) ?_)
  refine spells_text harrow (spells_conversion (by decide) (spellArg_int ..) ?_)
  exact spells_text hend spells_nil

end Lines

/-! ## The printf -/

section Printf

variable {mem : Memory} {buffer : Nat} {text : List UInt8} {scr : Screen}

/-- A printf whose format and arguments spell a line, as far as its caller can tell. -/
theorem printf_printed {fmt : Text} {args : List Arg} (hbuffer : buffer ≠ 0)
    (hargs : ∀ a ∈ args, Plain a) (hspell : spell mem buffer fmt args = .ok { text := text, args := [] })
    (htext : ∀ c ∈ text, c ≠ 0) :
    (printf mem buffer fmt args scr).map (fun _ => ()) = printed text scr := by
  have hcall : vsprintf mem buffer fmt args = .ok (stored mem buffer (text ++ [0]), text.length, []) :=
    vsprintf_spell hbuffer hargs hspell
  rw [printf, vfprintf, if_neg (not_not.mpr rfl), hcall, ok_bind, printed]
  dsimp only
  by_cases hfits : (text.length : Int) ≤ bufferSize
  · rw [assert_pos hfits, ok_bind, ok_bind]
    cases text with
    | nil => rfl
    | cons c text =>
      have hlen : (c :: text).length ≤ 2 ^ 32 := (Int.ofNat_le.mp hfits).trans (by decide)
      have hback : textAt (stored mem buffer (c :: text ++ [0])) buffer = ⟨c :: text, htext⟩ := by
        rw [textAt, Text.mk.injEq]
        exact stringAt_isString (isString_stored mem buffer ⟨c :: text, htext⟩) hlen
      have hpos : ((c :: text).length : Int) > 0 := Int.natCast_pos.mpr (Nat.succ_pos _)
      rw [if_pos hpos, hback, printk]
      cases Libk.Printk.loop (c :: text) (start scr) with
      | error e => rfl
      | ok r => rfl
  · rw [assert, if_neg hfits]
    rfl

theorem read_printf (hbuffer : buffer ≠ 0) (t : Transfer) :
    (printf mem buffer readFormat t.args scr).map (fun _ => ()) = printed t.readText scr :=
  printf_printed hbuffer t.plain (readFormat_spell t)
    (t.message_noNul (List.forall_iff_forall_mem.mp (by decide)))

theorem write_printf (hbuffer : buffer ≠ 0) (t : Transfer) :
    (printf mem buffer writeFormat t.args scr).map (fun _ => ()) = printed t.writeText scr :=
  printf_printed hbuffer t.plain (writeFormat_spell t)
    (t.message_noNul (List.forall_iff_forall_mem.mp (by decide)))

theorem printed_eq_ok {u : Unit} : printed text scr = .ok u ↔ Shown text scr := by
  simp only [printed, Shown, bind_eq_ok, assert_eq_ok, Int.ofNat_le, pure_eq_ok, and_true,
    exists_const]

theorem printed_of_shown (h : Shown text scr) : printed text scr = .ok () := printed_eq_ok.mpr h

/-- A tab is the character that moves the offset furthest. -/
theorem loop_short {r : Regs} {k : Nat} (hstart : r.eax ≤ 40960 + 16 * k)
    (hlen : k + text.length ≤ 1536) : ∃ r', Libk.Printk.loop text r = .ok r' := by
  induction text generalizing r k with
  | nil => exact ⟨r, rfl⟩
  | cons c text ih =>
    rw [List.length_cons] at hlen
    have hrow : ∀ row : Fin 256, offset row 0 ≤ 40960 := by
      intro row
      have hlt := row.isLt
      simp only [offset, Fin.val_zero]
      omega
    obtain ⟨r', hchar, hle⟩ : ∃ r', printChar c r = .ok r' ∧ r'.eax ≤ 40960 + 16 * (k + 1) := by
      unfold printChar
      split_ifs
      · refine ⟨_, rfl, ?_⟩
        rw [next_eax]
        show (r.eax / 16 * 16 + 16) % 2 ^ 32 ≤ _
        omega
      · refine ⟨_, rfl, ?_⟩
        rw [Regs.printCr, next_eax]
        exact (hrow _).trans (Nat.le_add_right ..)
      · refine ⟨_, rfl, ?_⟩
        rw [Regs.printCr, next_eax]
        exact (hrow _).trans (Nat.le_add_right ..)
      · rw [access_pos (by omega), ok_bind]
        refine ⟨_, rfl, ?_⟩
        rw [next_eax]
        show (r.eax + 2) % 2 ^ 32 ≤ _
        omega
    rw [Libk.Printk.loop, hchar, ok_bind]
    exact ih hle (by omega)

/-- A line of this length is shown on every screen. -/
theorem shown_of_short (hlen : text.length ≤ 1536) : Shown text scr := by
  have hrow := scr.row.isLt
  have hcol := scr.col.isLt
  have hstart : (start scr).eax ≤ 40960 + 16 * 0 := by
    show offset scr.row scr.col ≤ _
    simp only [offset]
    omega
  exact ⟨hlen.trans (by decide), loop_short hstart (by omega)⟩

/-- So is the line about a page that holds a short string. -/
theorem transfer_short {page : Memory} {n : Nat} (hpage : Terminated page 0 n) (hn : n ≤ 1400)
    (fPos bytes : Int) : Transfer.length ⟨fPos, bytes, page⟩ ≤ 1466 := by
  have hpos := numeral_length (Int32.ofInt fPos) (show 1 < 10 by decide)
  have hbytes := numeral_length (Int32.ofInt bytes) (show 1 < 10 by decide)
  rw [transfer_length hpage (by omega)]
  omega

theorem writeText_shown {page : Memory} {n : Nat} (hpage : Terminated page 0 n) (hn : n ≤ 1400)
    (fPos bytes : Int) : Shown (Transfer.writeText ⟨fPos, bytes, page⟩) scr := by
  have hlen := transfer_short hpage hn fPos bytes
  refine shown_of_short ?_
  rw [writeText_length]
  omega

theorem readText_shown {page : Memory} {n : Nat} (hpage : Terminated page 0 n) (hn : n ≤ 1400)
    (fPos bytes : Int) : Shown (Transfer.readText ⟨fPos, bytes, page⟩) scr := by
  have hlen := transfer_short hpage hn fPos bytes
  refine shown_of_short ?_
  rw [readText_length]
  omega

/-- And the line about the end of the file, which the loop of sys_read can leave out. -/
theorem cut_printf (hbuffer : buffer ≠ 0) (count cut : Int) :
    (printf mem buffer cutFormat [.int (Int32.ofInt count), .int (Int32.ofInt cut)] scr).map
      (fun _ => ()) = .ok () := by
  have hargs : ∀ a ∈ [Arg.int (Int32.ofInt count), .int (Int32.ofInt cut)], Plain a :=
    List.forall_mem_cons.mpr ⟨trivial, List.forall_mem_cons.mpr
      ⟨trivial, fun a ha => absurd ha List.not_mem_nil⟩⟩
  rw [printf_printed hbuffer hargs (cutFormat_spell count cut) (cutText_noNul count cut)]
  exact printed_of_shown (shown_of_short ((cutText_length count cut).trans (by decide)))

end Printf

end RxdOs.Fs.Message
