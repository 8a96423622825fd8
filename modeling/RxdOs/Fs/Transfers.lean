/- RxdOs/Fs/Transfers
   source: lib/printf.c (vfprintf, printf), fs/fs.c (sys_read, sys_write)
   digest: What printf writes beside its buffer: in a call that passes the check, and in the lines
   about the pages that sys_read and sys_write move. -/

import RxdOs.Fs.FileIo

set_option autoImplicit false
set_option relaxedAutoImplicit false

namespace RxdOs.Fs.Transfers

open RxdOs.Mm.Memory (allocPage allocPage_iff)

open RxdOs.Base.Assert RxdOs.Base.Int32 RxdOs.Libk.Str RxdOs.Libk.Itoa RxdOs.Libk.Itoaf
  RxdOs.Libk.Vsprintf RxdOs.Libk.Formatter RxdOs.Libk.Vfprintf RxdOs.Fs.Layout RxdOs.Fs.Bitmap
  RxdOs.Fs.FileWrite RxdOs.Fs.Message RxdOs.Fs.FileIo

/-! ## The pages -/

/-- The page begins with bytes of the user's range. -/
def OfUser (t : Transfer) (usr : Nat → UInt8) : Prop :=
  ∃ done, ∀ i : Nat, (i : Int) < t.bytes → t.page i = usr (done + i)

/-- A call on the way, and the pages spoken of if it stops there. -/
def before {α β : Type} (x : Kernel α) (stop : List Transfer)
    (go : α → List Transfer × Kernel β) : List Transfer × Kernel β :=
  match x with
  | .error e => (stop, .error e)
  | .ok a => go a

/-- The loop of sys_write with the pages it speaks of. -/
def writeTrace (usr : Nat → UInt8) (ptrs : Pointers) : Nat → Writing →
    List Transfer × Kernel Writing
  | 0, _ => ([], .error (.fault "while (left > 0)"))
  | fuel + 1, s =>
    if s.left > 0 then
      let t : Transfer := ⟨s.file.fPos, chunk s.left, filled usr s⟩
      before (printed t.writeText (s.screen s.done)) [t] fun _ =>
      before (Zone.write s.file.disk s.file.inode s.file.fPos (filled usr s) (chunk s.left) ptrs) [t]
        fun (bytes, disk, inode) =>
          if bytes > 0 then
            let r := writeTrace usr ptrs fuel { s with
              file := ⟨disk, inode, wrap (s.file.fPos + bytes)⟩
              left := toU32 (s.left - bytes)
              done := s.done + bytes.toNat
              buffer := filled usr s }
            (t :: r.1, r.2)
          else ([t], pure { s with file := ⟨disk, inode, s.file.fPos⟩, buffer := filled usr s })
    else ([], pure s)

/-- The loop of sys_read with the pages it speaks of. -/
def readTrace (disk : Disk) (inode : Inode) : Nat → Reading → List Transfer × Kernel Reading
  | 0, _ => ([], .error (.fault "while (left > 0)"))
  | fuel + 1, s =>
    if s.left > 0 then
      before (Zone.read disk inode s.fPos s.buffer (chunk s.left)) [] fun (bytes, buffer) =>
        if bytes > 0 then
          let t : Transfer := ⟨s.fPos, bytes, buffer⟩
          before (printed t.readText (s.screen s.done)) [t] fun _ =>
            let r := readTrace disk inode fuel { s with
              buffer := buffer
              usr := fun i =>
                if s.done ≤ i ∧ (i : Int) < s.done + bytes then buffer (i - s.done) else s.usr i
              left := toU32 (s.left - bytes)
              done := s.done + bytes.toNat
              fPos := wrap (s.fPos + bytes) }
            (t :: r.1, r.2)
        else
          readTrace disk inode fuel { s with
            buffer := buffer
            count := toU32 (s.count - (s.left - (inode.iSize - s.fPos)))
            left := toU32 (inode.iSize - s.fPos) }
    else ([], pure s)

/-- The pages that a call of sys_write speaks of. -/
def sysWriteTransfers (fuel : Nat) (s : OpenFile) (count : Int) (found : Found) (usr : Nat → UInt8)
    (ptrs : Pointers) : List Transfer :=
  (before (allocPage found.mem) [] fun _ =>
    writeTrace usr ptrs fuel ⟨s, count, 0, found.page, found.screen⟩).1

/-- The pages that a call of sys_read speaks of. -/
def sysReadTransfers (fuel : Nat) (s : OpenFile) (count : Int) (found : Found)
    (usr : Nat → UInt8) : List Transfer :=
  (before (allocPage found.mem) [] fun _ => readTrace s.disk s.inode fuel
    ⟨s.fPos, count, count, 0, found.page, usr, found.screen⟩).1

section Traces

variable {fuel : Nat} {usr : Nat → UInt8} {ptrs : Pointers} {disk : Disk} {inode : Inode}

theorem before_snd {α β : Type} (x : Kernel α) (stop : List Transfer)
    (go : α → List Transfer × Kernel β) : (before x stop go).2 = x >>= fun a => (go a).2 := by
  cases x <;> rfl

theorem before_fst {α β : Type} {P : Transfer → Prop} {x : Kernel α} {stop : List Transfer}
    {go : α → List Transfer × Kernel β} (hstop : ∀ t ∈ stop, P t)
    (hgo : ∀ a, x = .ok a → ∀ t ∈ (go a).1, P t) : ∀ t ∈ (before x stop go).1, P t := by
  cases x with
  | error e => exact hstop
  | ok a => exact hgo a rfl

/-- The trace goes along with what sys_write does. -/
theorem writeTrace_snd (s : Writing) : (writeTrace usr ptrs fuel s).2 =
    sysWriteLoop usr ptrs fuel s := by
  induction fuel generalizing s with
  | zero => rfl
  | succ fuel ih =>
    rw [writeTrace, sysWriteLoop]
    split_ifs with hleft
    · dsimp only
      rw [before_snd]
      refine bind_congr fun _ => ?_
      rw [before_snd]
      refine bind_congr fun r => ?_
      split_ifs with hbytes
      · exact ih _
      · rfl
    · rfl

theorem readTrace_snd (s : Reading) : (readTrace disk inode fuel s).2 =
    sysReadLoop disk inode fuel s := by
  induction fuel generalizing s with
  | zero => rfl
  | succ fuel ih =>
    rw [readTrace, sysReadLoop]
    split_ifs with hleft
    · rw [before_snd]
      refine bind_congr fun r => ?_
      dsimp only
      split_ifs with hbytes
      · rw [before_snd]
        exact bind_congr fun _ => ih _
      · exact ih _
    · rfl

/-- A page about to be written begins with bytes of the user's range. -/
theorem writeTrace_ofUser (s : Writing) :
    ∀ t ∈ (writeTrace usr ptrs fuel s).1, OfUser t usr := by
  induction fuel generalizing s with
  | zero => exact fun t ht => absurd ht List.not_mem_nil
  | succ fuel ih =>
    have hfirst : OfUser ⟨s.file.fPos, chunk s.left, filled usr s⟩ usr :=
      ⟨s.done, fun i hi => if_pos hi⟩
    have honly : ∀ t ∈ [Transfer.mk s.file.fPos (chunk s.left) (filled usr s)], OfUser t usr := by
      intro t ht
      rw [List.mem_singleton.mp ht]
      exact hfirst
    rw [writeTrace]
    split_ifs with hleft
    · refine before_fst honly fun _ _ => before_fst honly fun r _ => ?_
      dsimp only
      split_ifs with hbytes
      · exact List.forall_mem_cons.mpr ⟨hfirst, ih _⟩
      · exact honly
    · exact fun t ht => absurd ht List.not_mem_nil

/-- The user's range below `done` is left alone. -/
theorem sysReadLoop_below {s s' : Reading} (h : sysReadLoop disk inode fuel s = .ok s') :
    ∀ i < s.done, s'.usr i = s.usr i := by
  induction fuel generalizing s with
  | zero => cases h
  | succ fuel ih =>
    rw [sysReadLoop] at h
    split_ifs at h with hleft
    · obtain ⟨⟨bytes, buffer⟩, -, h⟩ := bind_eq_ok.mp h
      dsimp only at h
      split_ifs at h with hbytes
      · obtain ⟨_, -, h⟩ := bind_eq_ok.mp h
        intro i hi
        rw [ih h i (Nat.lt_add_right _ hi)]
        exact if_neg fun hin => absurd hin.1 (not_le.mpr hi)
      · exact fun i hi => ih h i hi
    · rw [← Except.ok.inj h]
      exact fun i _ => rfl

/-- A page that was read begins with bytes that the user gets. -/
theorem readTrace_ofUser {s s' : Reading} (h : sysReadLoop disk inode fuel s = .ok s') :
    ∀ t ∈ (readTrace disk inode fuel s).1, OfUser t s'.usr := by
  induction fuel generalizing s with
  | zero => exact fun t ht => absurd ht List.not_mem_nil
  | succ fuel ih =>
    rw [sysReadLoop] at h
    rw [readTrace]
    split_ifs at h ⊢ with hleft
    · obtain ⟨⟨bytes, buffer⟩, hread, h⟩ := bind_eq_ok.mp h
      refine before_fst (fun t ht => absurd ht List.not_mem_nil) fun r hr => ?_
      obtain rfl := Except.ok.inj (hread.symm.trans hr)
      dsimp only at h ⊢
      split_ifs at h ⊢ with hbytes
      · obtain ⟨u, -, h⟩ := bind_eq_ok.mp h
        have hfirst : OfUser ⟨s.fPos, bytes, buffer⟩ s'.usr := by
          refine ⟨s.done, fun i hi => ?_⟩
          have hlt : (i : Int) < bytes := hi
          have hdone : s.done + i < s.done + bytes.toNat := by omega
          have hrange : s.done ≤ s.done + i ∧ ((s.done + i : Nat) : Int) < s.done + bytes :=
            ⟨Nat.le_add_right .., by omega⟩
          have hput : s'.usr (s.done + i) = if s.done ≤ s.done + i ∧
              ((s.done + i : Nat) : Int) < s.done + bytes then buffer (s.done + i - s.done)
              else _ := sysReadLoop_below h (s.done + i) hdone
          rw [hput, if_pos hrange, Nat.add_sub_cancel_left]
        refine before_fst (fun t ht => ?_) fun _ _ => List.forall_mem_cons.mpr ⟨hfirst, ih h⟩
        rw [List.mem_singleton.mp ht]
        exact hfirst
      · exact ih h
    · exact fun t ht => absurd ht List.not_mem_nil

theorem transfer_first {s : OpenFile} {count : Int} {found : Found} (hpaged : found.Paged)
    (hcount : 0 < count) :
    ⟨s.fPos, chunk count, filled usr ⟨s, count, 0, found.page, found.screen⟩⟩ ∈
      sysWriteTransfers (fuel + 1) s count found usr ptrs := by
  have hbefore : ∀ {α β : Type} {x : Kernel α} {t : Transfer} {go : α → List Transfer × Kernel β},
      (∀ a, t ∈ (go a).1) → t ∈ (before x [t] go).1 := by
    intro α β x t go hgo
    cases x with
    | error e => exact List.mem_singleton_self t
    | ok a => exact hgo a
  obtain ⟨k, hk, hfree, hfirst, hhigh⟩ := hpaged
  obtain ⟨mem, halloc⟩ :=
    allocPage_iff.mpr ⟨k, Nat.lt_of_succ_lt hk, rfl, hfree, hfirst, hhigh⟩
  rw [sysWriteTransfers, halloc, before, writeTrace, if_pos hcount]
  refine hbefore fun _ => hbefore fun r => ?_
  dsimp only
  split_ifs
  · exact List.mem_cons_self ..
  · exact List.mem_singleton_self _

end Traces

/-! ## The bound -/

theorem writeFormat_bounded_iff (t : Transfer) :
    Bounded writeFormat t.args ↔ t.length + 35 < bufferSize := by
  rw [bounded_iff t.plain fun _ _ => writeFormat_spell t, writeText_length]

theorem readFormat_bounded_iff (t : Transfer) :
    Bounded readFormat t.args ↔ t.length + 33 < bufferSize := by
  rw [bounded_iff t.plain fun _ _ => readFormat_spell t, readText_length]

/-- A call that passes the check has stayed in the buffer if and only if its text fits; the line
about a page of user data that is written, or read, stays in the buffer if and only if it is
short. -/
theorem printing_bounded_iff (mem : Memory) (buffer : Nat) (fmt : Text) (args : List Arg) :
    (buffer ≠ 0 → (∀ a ∈ args, Plain a) →
      (Checked mem buffer fmt args ↔ Fits mem buffer fmt args)) ∧
    (∀ (fuel : Nat) (s : OpenFile) (count : Int) (found : Found) (usr : Nat → UInt8)
      (ptrs : Pointers), ∀ t ∈ sysWriteTransfers fuel s count found usr ptrs, OfUser t usr ∧
        (Bounded writeFormat t.args ↔ t.length + 35 < bufferSize)) ∧
    ∀ (fuel : Nat) (s : OpenFile) (count : Int) (found : Found) (usr : Nat → UInt8),
      ∀ t ∈ sysReadTransfers fuel s count found usr,
        (∀ ret usr' s', sysRead fuel s count found usr = .ok (ret, usr', s') → OfUser t usr') ∧
          (Bounded readFormat t.args ↔ t.length + 33 < bufferSize) := by
  refine ⟨checked_iff, ?_, ?_⟩
  · intro fuel s count found usr ptrs t ht
    have huser : ∀ t ∈ sysWriteTransfers fuel s count found usr ptrs, OfUser t usr :=
      before_fst (fun t ht => absurd ht List.not_mem_nil) fun _ _ => writeTrace_ofUser _
    exact ⟨huser t ht, writeFormat_bounded_iff t⟩
  · intro fuel s count found usr t ht
    refine ⟨fun ret usr' s' hok => ?_, readFormat_bounded_iff t⟩
    obtain ⟨r, hloop, heq⟩ := bind_eq_ok.mp (withPage_eq_ok.mp hok).2
    obtain ⟨-, hend⟩ := Prod.mk.inj (Except.ok.inj heq)
    obtain ⟨rfl, -⟩ := Prod.mk.inj hend
    have huser : ∀ t ∈ sysReadTransfers fuel s count found usr, OfUser t r.usr :=
      before_fst (fun t ht => absurd ht List.not_mem_nil) fun _ _ => readTrace_ofUser hloop
    exact huser t ht

theorem printing_bounded_short : Checked (fun _ => 0) 1 (phrase "%d" (by decide)) [.int 7] ∧
    ∃ t ∈ sysWriteTransfers 1 emptyOpen 1 cleared (fun _ => 97) (fun _ => 0),
      Bounded writeFormat t.args := by
  refine ⟨((printing_bounded_iff _ _ _ _).1 Nat.one_ne_zero (by simp [Plain])).mpr ?_,
    _, transfer_first cleared_paged (by decide), ?_⟩
  · intro d hd
    have hspell : spell (fun _ => 0) 1 (phrase "%d" (by decide)) [.int 7] =
        .ok { text := numeral 7 10, args := [] } :=
      Spells.spell (spells_conversion (by decide) (spellArg_int ..) spells_nil)
    obtain rfl := Except.ok.inj (hspell.symm.trans hd)
    exact .inl ((numeral_length 7 (by decide)).trans_lt (by decide))
  · have hpage : Terminated (filled (fun _ => 97) ⟨emptyOpen, 1, 0, cleared.page, cleared.screen⟩)
        0 1 := by
      refine ⟨fun i hi => ?_, rfl⟩
      obtain rfl : i = 0 := Nat.lt_one_iff.mp hi
      decide
    refine ((printing_bounded_iff (fun _ => 0) 1 writeFormat []).2.1 1 emptyOpen 1 _ _
      (fun _ => 0) _ (transfer_first cleared_paged (by decide))).2.mpr ?_
    have hshort := transfer_short hpage (by decide) emptyOpen.fPos (chunk 1)
    rw [bufferSize]
    omega

def letters (n : Nat) : Text where
  chars := List.replicate n 97
  noNul c hc := List.eq_of_mem_replicate hc ▸ by decide

theorem letters_length (n : Nat) : (letters n).chars.length = n := List.length_replicate

theorem letters_spell (mem : Memory) (buffer n : Nat) :
    spell mem buffer (letters n) [] = .ok { text := (letters n).chars, args := [] } := by
  have hplain : ∀ c ∈ (letters n).chars, c ≠ percent := by
    intro c hc
    rw [List.eq_of_mem_replicate hc]
    decide
  have hrest : Spells mem buffer [] [] ((letters n).chars ++ []) _ := spells_text hplain spells_nil
  rw [List.append_nil] at hrest
  exact hrest.spell

/-- Exactly 2048 letters pass the check, and in every memory their NUL goes behind the buffer; and
a page of letters without a NUL is printed whole. -/
theorem page_overruns : (∀ mem, ¬Checked mem 1 (letters 2048) []) ∧
    ∃ t ∈ sysWriteTransfers 1 emptyOpen 4096 cleared (fun _ => 97) (fun _ => 0),
      ¬Bounded writeFormat t.args := by
  refine ⟨fun mem h => ?_, _, transfer_first cleared_paged (by decide), fun h => ?_⟩
  · have hlen : (letters 2048).chars.length = bufferSize := letters_length 2048
    rcases (checked_iff Nat.one_ne_zero fun a ha => absurd ha List.not_mem_nil).mp h _
      (letters_spell ..) with hshort | ⟨-, hlong⟩
    · exact absurd (hshort.trans_eq hlen.symm) (lt_irrefl _)
    · exact absurd (hlen.trans_lt hlong) (lt_irrefl _)
  · have hpage : Terminated
        (filled (fun _ => 97) ⟨emptyOpen, 4096, 0, cleared.page, cleared.screen⟩) 0 4096 := by
      refine ⟨fun i hi => ?_, rfl⟩
      have hin : ((0 + i : Nat) : Int) < chunk 4096 := by
        show ((0 + i : Nat) : Int) < 4096
        omega
      rw [filled, if_pos hin]
      decide
    have hshort := (writeFormat_bounded_iff _).mp h
    rw [transfer_length hpage (by decide), bufferSize] at hshort
    omega

end RxdOs.Fs.Transfers
