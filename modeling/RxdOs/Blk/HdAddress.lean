/- RxdOs/Blk/HdAddress
   source: kernel/blk_drv/hd.c (hd_cmd_out), boot/setup.asm (check_hd), include/head.h
   digest: What a drive reads out of the registers hd_cmd_out writes: the sector that was asked
   for, in CHS mode only where the stored geometry and the head and cylinder fields allow. -/

import RxdOs.Blk.Hd

set_option autoImplicit false
set_option relaxedAutoImplicit false

namespace RxdOs.Blk.HdAddress

open RxdOs.Base.Assert RxdOs.Blk.Hd

/-! ## setup.asm -/

/-- What int 13h returns for the disk: the sector count with two cylinder bits above it, and the
last head. -/
structure BiosGeometry where
  cl : UInt8
  dh : UInt8

/-- `mov [6], cl` -/
def BiosGeometry.bootSectPerTrk (g : BiosGeometry) : Nat := g.cl.toNat

/-- `inc dh`, `mov [7], dh` -/
def BiosGeometry.bootHeadNr (g : BiosGeometry) : Nat := (g.dh + 1).toNat

/-- The sectors of a track. -/
def BiosGeometry.sectors (g : BiosGeometry) : Nat := g.cl.toNat % 64

def BiosGeometry.heads (g : BiosGeometry) : Nat := g.dh.toNat + 1

/-- The driver reads the geometry that setup.asm stored. -/
structure Booted (d : Drive) (g : BiosGeometry) : Prop where
  sectPerTrk : d.sectPerTrk = g.bootSectPerTrk
  headNr : d.headNr = g.bootHeadNr

/-! ## The drive's side -/

/-- The command block registers; a drive with 48-bit addresses keeps the previous value of each. -/
structure TaskFile where
  current : Nat → Nat
  previous : Nat → Nat

/-- A byte arrives at a port. -/
def TaskFile.write (t : TaskFile) (port value : Nat) : TaskFile where
  current := Function.update t.current port (value % 256)
  previous := Function.update t.previous port (t.current port)

/-- The registers after some port accesses, latest first. -/
def taskFile (t : TaskFile) : List PortOp → TaskFile
  | [] => t
  | .out port value :: ops => (taskFile t ops).write port value
  | _ :: ops => taskFile t ops

/-- The addressing mode of the command: 48-bit commands have bit 2 set, the others choose by bit 6
of the device register. -/
def TaskFile.mode (t : TaskFile) : Nat :=
  if t.current command &&& cmdRw48 ≠ 0 then 2
  else if t.current device &&& devLba48 ≠ 0 then 1 else 0

def byteCount (n : Nat) : Nat := if n = 0 then 256 else n

def wordCount (n : Nat) : Nat := if n = 0 then 65536 else n

/-- The sector number and the sector count that the drive carries the command out for. -/
def TaskFile.decode (t : TaskFile) (sectors heads : Nat) : Nat × Nat :=
  let low := t.current addr0 + 256 * t.current addr1 + 65536 * t.current addr2
  let high := t.previous addr0 + 256 * t.previous addr1 + 65536 * t.previous addr2
  let head := t.current device % 16
  let cylinder := t.current addr1 + 256 * t.current addr2
  if t.mode = 2 then
    (low + 2 ^ 24 * high, wordCount (t.current sectCnt + 256 * t.previous sectCnt))
  else if t.mode = 1 then (low + 2 ^ 24 * head, byteCount (t.current sectCnt))
  else ((cylinder * heads + head) * sectors + t.current addr0 - 1, byteCount (t.current sectCnt))

/-! ## What is asked of hd_cmd_out -/

/-- The call neither fails its assertion nor panics. -/
def Accepted (d : Drive) (devNr cmd count low high : Nat) : Prop :=
  ∀ e, hdCmdOut d devNr cmd count low high = .error e → ∃ what, e = .fault what

/-- The drive reads the sector number and the count that were asked for, whatever its registers
held. -/
def Faithful (d : Drive) (g : BiosGeometry) (devNr cmd count low high : Nat) : Prop :=
  ∃ d', hdCmdOut d devNr cmd count low high = .ok d' ∧
    ∀ t, (taskFile t d'.ops).decode g.sectors g.heads = (low + 2 ^ 32 * high, count)

/-- In CHS mode the stored bytes are not zero, and the sector is on the first track by them, or
they are the true ones and its cylinder and head have room in their registers. -/
def Encodable (d : Drive) (g : BiosGeometry) (low : Nat) : Prop :=
  d.addrMode = 0 → g.cl ≠ 0 ∧ g.dh ≠ 255 ∧
    (low < g.cl.toNat ∨ g.cl.toNat < 64 ∧ low / g.cl.toNat / g.heads < 65536 ∧
      low / g.cl.toNat % g.heads < 16)

instance (d : Drive) (g : BiosGeometry) (low : Nat) : Decidable (Encodable d g low) :=
  inferInstanceAs (Decidable (_ → _))

variable {d d' : Drive} {g : BiosGeometry} {devNr cmd count low high : Nat}

/-! ## Registers -/

theorem taskFile_append (t : TaskFile) (ops ops' : List PortOp) :
    taskFile t (ops ++ ops') = taskFile (taskFile t ops') ops := by
  induction ops with
  | nil => rfl
  | cons op ops ih =>
    cases op with
    | out port value => exact congrArg (TaskFile.write · port value) ih
    | status value => exact ih
    | dataIn sector => exact ih
    | dataOut sector => exact ih

theorem and_255 (n : Nat) : n &&& 0xff = n % 256 := Nat.and_two_pow_sub_one_eq_mod n 8

theorem and_15 (n : Nat) : n &&& 0x0f = n % 16 := Nat.and_two_pow_sub_one_eq_mod n 4

theorem and_65535 (n : Nat) : n &&& 0xffff = n % 65536 := Nat.and_two_pow_sub_one_eq_mod n 16

/-- The registers hold what the last write to each put there. -/
structure Holds (t : TaskFile) (devReg cmd count low : Nat) : Prop where
  sectCnt : t.current sectCnt = count % 256
  addr0 : t.current addr0 = low % 256
  addr1 : t.current addr1 = low / 256 % 256
  addr2 : t.current addr2 = low / 65536 % 256
  device : t.current device = devReg % 256
  command : t.current command = cmd % 256

theorem holds_registers (d : Drive) (t : TaskFile) (addrMode devReg cmd count low high : Nat) :
    Holds (taskFile t (d.outb (registers addrMode devReg cmd count low high)).ops) devReg cmd
      count low := by
  rw [Drive.outb, taskFile_append]
  by_cases hmode : addrMode = 2
  · constructor <;>
      simp [registers, hmode, taskFile, TaskFile.write, sectCnt, addr0, addr1, addr2, device,
        command, features, devCtrl, and_255, Nat.shiftRight_eq_div_pow]
  · constructor <;>
      simp [registers, hmode, taskFile, TaskFile.write, sectCnt, addr0, addr1, addr2, device,
        command, features, devCtrl, and_255, Nat.shiftRight_eq_div_pow]

/-- In LBA48 mode the high halves went through the same ports before. -/
structure HoldsHigh (t : TaskFile) (count low high : Nat) : Prop where
  sectCnt : t.previous sectCnt = count / 256 % 256
  addr0 : t.previous addr0 = low / 2 ^ 24 % 256
  addr1 : t.previous addr1 = high % 256
  addr2 : t.previous addr2 = high / 256 % 256

theorem holdsHigh_registers (d : Drive) (t : TaskFile) (devReg cmd count low high : Nat) :
    HoldsHigh (taskFile t (d.outb (registers 2 devReg cmd count low high)).ops) count low high := by
  rw [Drive.outb, taskFile_append]
  constructor <;>
    simp [registers, taskFile, TaskFile.write, sectCnt, addr0, addr1, addr2, device, command,
      features, devCtrl, and_255, Nat.shiftRight_eq_div_pow]

/-- The low 24 bits of a number, byte by byte. -/
def bytes24 (n : Nat) : Nat := n % 256 + 256 * (n / 256 % 256) + 65536 * (n / 65536 % 256)

section Decode

variable {t : TaskFile} {devReg sectors heads : Nat}

theorem Holds.decode_chs (h : Holds t devReg cmd count low) (hcmd : cmd % 256 &&& cmdRw48 = 0)
    (hdev : devReg % 256 &&& devLba48 = 0) : t.decode sectors heads =
      (((low / 256 % 256 + 256 * (low / 65536 % 256)) * heads + devReg % 256 % 16) * sectors +
        low % 256 - 1, byteCount (count % 256)) := by
  simp only [TaskFile.decode, TaskFile.mode, h.command, hcmd, h.device, hdev, h.sectCnt, h.addr0,
    h.addr1, h.addr2]
  rfl

theorem Holds.decode_lba28 (h : Holds t devReg cmd count low) (hcmd : cmd % 256 &&& cmdRw48 = 0)
    (hdev : devReg % 256 &&& devLba48 ≠ 0) : t.decode sectors heads =
      (bytes24 low + 2 ^ 24 * (devReg % 256 % 16), byteCount (count % 256)) := by
  have hmode : t.mode = 1 := by
    rw [TaskFile.mode, h.command, hcmd, h.device, if_neg (not_not.mpr rfl), if_pos hdev]
  simp only [TaskFile.decode, hmode, h.device, h.sectCnt, h.addr0, h.addr1, h.addr2, bytes24]
  rfl

theorem Holds.decode_lba48 (h : Holds t devReg cmd count low) (hhigh : HoldsHigh t count low high)
    (hcmd : cmd % 256 &&& cmdRw48 ≠ 0) : t.decode sectors heads =
      (bytes24 low + 2 ^ 24 *
          (low / 2 ^ 24 % 256 + 256 * (high % 256) + 65536 * (high / 256 % 256)),
        wordCount (count % 256 + 256 * (count / 256 % 256))) := by
  have hmode : t.mode = 2 := by
    rw [TaskFile.mode, h.command, if_pos hcmd]
  simp only [TaskFile.decode, hmode, h.sectCnt, h.addr0, h.addr1, h.addr2, hhigh.sectCnt,
    hhigh.addr0, hhigh.addr1, hhigh.addr2, bytes24]
  rfl

end Decode

/-! ## Accepted calls -/

/-- What the checks of hd_cmd_out leave. -/
structure Checked (d : Drive) (devNr count low high : Nat) : Prop where
  devNr : devNr ≤ 1
  count_pos : count ≠ 0
  count_le : count ≤ if d.addrMode = 2 then 65536 else 256
  high : high = 0
  low : low < 2 ^ 28
  mode : d.addrMode = 0 ∨ d.addrMode = 1 ∨ d.addrMode = 2

/-- An accepted call has passed the checks and writes the registers, unless computing the address
faults. -/
theorem Accepted.checked (hacc : Accepted d devNr cmd count low high) :
    Checked d devNr count low high ∧ ∃ d₁, Waited d d₁ ∧
      hdCmdOut d devNr cmd count low high = (do
        let (nsect, devReg, cmd) ← address d₁ (devNr <<< 4) cmd low
        pure (d₁.outb (registers d.addrMode devReg cmd count nsect high))) := by
  have hwait := waitStatus_waited statBusy 0 normWaitTime d
  have hstop : ∀ msg, hdCmdOut d devNr cmd count low high ≠ .error (.panic msg) := by
    intro msg herr
    obtain ⟨what, heq⟩ := hacc _ herr
    cases heq
  have hassert : ∀ exp, hdCmdOut d devNr cmd count low high ≠ .error (.assertFailed exp) := by
    intro exp herr
    obtain ⟨what, heq⟩ := hacc _ herr
    cases heq
  have hdev : devNr ≤ 1 := by
    by_contra hbad
    refine hassert "dev_nr <= 1" ?_
    rw [hdCmdOut, bind_eq_error]
    exact .inl (assert_eq_error.mpr ⟨hbad, rfl⟩)
  simp only [hdCmdOut, assert_pos hdev, ok_bind] at hstop ⊢
  generalize hlimit : (if d.addrMode = 2 then 65536 else 256) = limit at hstop ⊢
  split_ifs at hstop with hcount hhigh hready
  · exact absurd rfl (hstop _)
  · exact absurd rfl (hstop _)
  · exact absurd rfl (hstop _)
  · obtain ⟨hpos, hle⟩ := not_or.mp hcount
    obtain ⟨hhigh0, hlow⟩ := not_or.mp hhigh
    have hmode : d.addrMode = 0 ∨ d.addrMode = 1 ∨ d.addrMode = 2 := by
      by_contra hbad
      obtain ⟨h0, h1, h2⟩ : d.addrMode ≠ 0 ∧ d.addrMode ≠ 1 ∧ d.addrMode ≠ 2 := by
        simpa only [not_or] using hbad
      refine hstop "HD: unknown addring mode." ?_
      rw [bind_eq_error]
      left
      rw [← hwait.addrMode] at h0 h1 h2
      simp only [address]
    refine ⟨⟨hdev, hpos, hlimit ▸ not_lt.mp hle, not_not.mp hhigh0, not_le.mp hlow, hmode⟩,
      (waitStatus statBusy 0 normWaitTime d).2, hwait, ?_⟩
    rw [if_neg hcount, if_neg hhigh, if_neg hready, hwait.addrMode]

/-- A ready drive takes every request that passes the checks. -/
theorem Checked.accepted (h : Checked d devNr count low high) (hready : d.Ready) :
    Accepted d devNr cmd count low high := by
  have hwait := waitStatus_waited statBusy 0 normWaitTime d
  rw [ready_iff] at hready
  have hcount : ¬(count = 0 ∨ count > if d.addrMode = 2 then 65536 else 256) :=
    not_or.mpr ⟨h.count_pos, not_lt.mpr h.count_le⟩
  have hhigh : ¬(high ≠ 0 ∨ low ≥ 0x10000000) :=
    not_or.mpr ⟨not_not.mpr h.high, not_le.mpr h.low⟩
  intro e herr
  simp only [hdCmdOut, assert_pos h.devNr, ok_bind, if_neg hcount, if_neg hhigh,
    if_neg hready, bind_eq_error, pure_eq_ok, reduceCtorEq, and_false, exists_false,
    or_false] at herr
  rcases h.mode with hmode | hmode | hmode
  · rw [address, hwait.addrMode, hmode] at herr
    simp only [bind_eq_error, pure_eq_ok, reduceCtorEq, and_false, exists_false, or_false] at herr
    exact ⟨_, (access_eq_error.mp herr).2⟩
  · rw [address, hwait.addrMode, hmode] at herr
    cases herr
  · rw [address, hwait.addrMode, hmode] at herr
    cases herr

/-! ## LBA28 and LBA48 -/

theorem byteCount_mod {n : Nat} (hpos : n ≠ 0) (hle : n ≤ 256) : byteCount (n % 256) = n := by
  rw [byteCount]
  split_ifs with hzero
  · omega
  · omega

theorem wordCount_split {n : Nat} (hpos : n ≠ 0) (hle : n ≤ 65536) :
    wordCount (n % 256 + 256 * (n / 256 % 256)) = n := by
  rw [wordCount]
  split_ifs with hzero
  · omega
  · omega

/-- The commands hd_rdwt gives. -/
def ReadWrite (cmd : Nat) : Prop := cmd = cmdRead ∨ cmd = cmdWrite

/-- A device register for LBA28 has bit 6 set and the four address bits below. -/
theorem lba28_device : ∀ devNr ≤ 1, ∀ head < 16,
    ((devNr <<< 4 ||| devLba28 ||| head) % 256) % 16 = head ∧
      (devNr <<< 4 ||| devLba28 ||| head) % 256 &&& devLba48 ≠ 0 := by
  decide

/-- One for CHS has bit 6 clear. -/
theorem chs_device : ∀ devNr ≤ 1, ∀ head < 16,
    ((devNr <<< 4 ||| devChs ||| head) % 256) % 16 = head ∧
      (devNr <<< 4 ||| devChs ||| head) % 256 &&& devLba48 = 0 := by
  decide

theorem ReadWrite.not_ext (h : ReadWrite cmd) : cmd % 256 &&& cmdRw48 = 0 := by
  rcases h with rfl | rfl
  · decide
  · decide

theorem ReadWrite.ext (h : ReadWrite cmd) : (cmd ||| cmdRw48) % 256 &&& cmdRw48 ≠ 0 := by
  rcases h with rfl | rfl
  · decide
  · decide

theorem faithful_lba28 (hmode : d.addrMode = 1) (hcmd : ReadWrite cmd)
    (hacc : Accepted d devNr cmd count low high) : Faithful d g devNr cmd count low high := by
  obtain ⟨hchecked, d₁, hwait, heq⟩ := hacc.checked
  have hdev := lba28_device devNr hchecked.devNr (low / 2 ^ 24 % 16) (Nat.mod_lt _ (by decide))
  have hle := hchecked.count_le
  rw [hmode, if_neg (by decide)] at hle
  have hlow := hchecked.low
  have haddress : address d₁ (devNr <<< 4) cmd low =
      .ok (low, devNr <<< 4 ||| devLba28 ||| low / 2 ^ 24 % 16, cmd) := by
    rw [address, hwait.addrMode, hmode, and_15, Nat.shiftRight_eq_div_pow]
    rfl
  refine ⟨d₁.outb (registers d.addrMode (devNr <<< 4 ||| devLba28 ||| low / 2 ^ 24 % 16) cmd count
    low high), by rw [heq, haddress]; rfl, fun t => ?_⟩
  rw [(holds_registers d₁ t _ _ _ _ _ _).decode_lba28 hcmd.not_ext hdev.2, hdev.1,
    byteCount_mod hchecked.count_pos hle, hchecked.high, bytes24, Prod.mk.injEq]
  refine ⟨?_, rfl⟩
  omega

theorem faithful_lba48 (hmode : d.addrMode = 2) (hcmd : ReadWrite cmd)
    (hacc : Accepted d devNr cmd count low high) : Faithful d g devNr cmd count low high := by
  obtain ⟨hchecked, d₁, hwait, heq⟩ := hacc.checked
  have hle := hchecked.count_le
  rw [hmode, if_pos rfl] at hle
  have hlow := hchecked.low
  have haddress : address d₁ (devNr <<< 4) cmd low =
      .ok (low, devNr <<< 4 ||| devLba48, cmd ||| cmdRw48) := by
    rw [address, hwait.addrMode, hmode]
    rfl
  refine ⟨d₁.outb (registers 2 (devNr <<< 4 ||| devLba48) (cmd ||| cmdRw48) count low high),
    by rw [heq, haddress, hmode]; rfl, fun t => ?_⟩
  rw [(holds_registers d₁ t _ _ _ _ _ _).decode_lba48 (holdsHigh_registers d₁ t _ _ _ _ _) hcmd.ext,
    wordCount_split hchecked.count_pos hle, hchecked.high, bytes24, Prod.mk.injEq]
  refine ⟨?_, rfl⟩
  omega

/-! ## CHS -/

/-- The cylinder and head fields hold the track, or lose some of it. -/
theorem chs_fields_iff {track heads : Nat} (hheads : 0 < heads) :
    track / heads % 65536 * heads + track % heads % 16 = track ↔
      track / heads < 65536 ∧ track % heads < 16 := by
  have hsplit := Nat.div_add_mod track heads
  rw [Nat.mul_comm] at hsplit
  have hcyl : track / heads % 65536 ≤ track / heads := Nat.mod_le _ _
  have hhead : track % heads % 16 ≤ track % heads := Nat.mod_le _ _
  have hmul : track / heads % 65536 * heads ≤ track / heads * heads := Nat.mul_le_mul_right _ hcyl
  constructor
  · intro heq
    have hsame : track / heads % 65536 * heads = track / heads * heads := by omega
    have hcyl' := Nat.eq_of_mul_eq_mul_right hheads hsame
    omega
  · rintro ⟨hc, hh⟩
    rw [Nat.mod_eq_of_lt hc, Nat.mod_eq_of_lt hh]
    exact hsplit

/-- The number decoded with the true sectors of a track is the one that was divided by the stored
ones. -/
theorem chs_decode_iff {low spt heads : Nat} (hspt : 0 < spt) (hheads : 0 < heads) :
    (low / spt / heads % 65536 * heads + low / spt % heads % 16) * (spt % 64) + low % spt = low ↔
      low < spt ∨ spt < 64 ∧ low / spt / heads < 65536 ∧ low / spt % heads < 16 := by
  have hsplit := Nat.div_add_mod low spt
  rw [Nat.mul_comm] at hsplit
  have hle : low / spt / heads % 65536 * heads + low / spt % heads % 16 ≤ low / spt := by
    have htrack := Nat.div_add_mod (low / spt) heads
    rw [Nat.mul_comm] at htrack
    have hmul : low / spt / heads % 65536 * heads ≤ low / spt / heads * heads :=
      Nat.mul_le_mul_right _ (Nat.mod_le _ _)
    have hmod : low / spt % heads % 16 ≤ low / spt % heads := Nat.mod_le _ _
    omega
  rw [← @chs_fields_iff (low / spt) heads hheads]
  generalize hfields : low / spt / heads % 65536 * heads + low / spt % heads % 16 = fields at hle ⊢
  constructor
  · intro heq
    have hprod : fields * (spt % 64) = low / spt * spt := by omega
    rcases Nat.eq_zero_or_pos (low / spt) with hzero | hpos
    · exact .inl ((Nat.div_eq_zero_iff_lt hspt).mp hzero)
    · right
      have hsmall : spt < 64 := by
        by_contra hbig
        have hlt : spt % 64 < spt := by omega
        have hmul : fields * (spt % 64) ≤ low / spt * (spt % 64) := Nat.mul_le_mul_right _ hle
        have hmul' : low / spt * (spt % 64) < low / spt * spt := Nat.mul_lt_mul_of_pos_left hlt hpos
        omega
      rw [Nat.mod_eq_of_lt hsmall] at hprod
      exact ⟨hsmall, Nat.eq_of_mul_eq_mul_right hspt hprod⟩
  · rintro (hfirst | ⟨hsmall, heq⟩)
    · have hzero : low / spt = 0 := Nat.div_eq_of_lt hfirst
      have hnone : fields = 0 := by omega
      rw [hnone, Nat.zero_mul, Nat.zero_add, Nat.mod_eq_of_lt hfirst]
    · rw [heq, Nat.mod_eq_of_lt hsmall]
      exact hsplit

/-- The registers of the CHS branch as numbers. -/
theorem chs_eq {spt headNr : Nat} (hspt : 0 < spt) (hle : spt ≤ 255) (low : Nat) :
    chs spt headNr low =
      (256 * (low / spt / headNr % 65536) + (low % spt + 1), low / spt % headNr % 16) := by
  have hsector : low % spt + 1 < 256 := by
    have hlt := Nat.mod_lt low hspt
    omega
  rw [chs, and_255, and_65535, and_15, Nat.mod_eq_of_lt hsector, Nat.or_comm,
    ← Nat.shiftLeft_add_eq_or_of_lt hsector, Nat.shiftLeft_eq, Nat.mul_comm]

theorem BiosGeometry.bootHeadNr_eq (g : BiosGeometry) (h : g.dh ≠ 255) :
    g.bootHeadNr = g.heads := by
  have hlt := g.dh.toNat_lt
  have hne : g.dh.toNat ≠ 255 := fun heq => h (UInt8.toNat_inj.mp heq)
  rw [BiosGeometry.bootHeadNr, BiosGeometry.heads, UInt8.toNat_add]
  exact Nat.mod_eq_of_lt (show g.dh.toNat + 1 < 256 by omega)

/-- The geometry divides by zero exactly when one of the two bytes is zero. -/
theorem stored_ne_zero_iff (hg : Booted d g) :
    (d.sectPerTrk ≠ 0 ∧ d.headNr ≠ 0) ↔ g.cl ≠ 0 ∧ g.dh ≠ 255 := by
  rw [hg.sectPerTrk, hg.headNr]
  refine and_congr (not_congr ?_) (not_congr ⟨fun hzero => ?_, ?_⟩)
  · refine ⟨fun hzero => UInt8.toNat_inj.mp hzero, fun hzero => ?_⟩
    rw [BiosGeometry.bootSectPerTrk, hzero]
    rfl
  · by_contra hne
    rw [g.bootHeadNr_eq hne, BiosGeometry.heads] at hzero
    omega
  · intro hlast
    rw [BiosGeometry.bootHeadNr, hlast]
    rfl

/-- The sector that the true geometry makes of the fields that the stored one gave. -/
def chsSector (g : BiosGeometry) (low : Nat) : Nat :=
  (low / g.cl.toNat / g.heads % 65536 * g.heads + low / g.cl.toNat % g.heads % 16) * g.sectors +
    low % g.cl.toNat

theorem Booted.address_chs {d₁ : Drive} (hg : Booted d g) (hmode : d.addrMode = 0)
    (hwait : Waited d d₁) : address d₁ (devNr <<< 4) cmd low = (do
      access (d.sectPerTrk ≠ 0 ∧ d.headNr ≠ 0) "nsect_low % BOOT_PARAM_HD_SECT_PER_TRK"
      let (nsect, head) := chs g.bootSectPerTrk g.bootHeadNr low
      pure (nsect, devNr <<< 4 ||| devChs ||| head, cmd)) := by
  rw [address, hwait.addrMode, hmode, hwait.sectPerTrk, hwait.headNr, hg.sectPerTrk, hg.headNr]
  rfl

/-- Where the divisions do not fault, an accepted request in CHS mode reaches the drive, which
reads `chsSector` out of it. -/
theorem Accepted.chs (hacc : Accepted d devNr cmd count low high) (hg : Booted d g)
    (hmode : d.addrMode = 0) (hcmd : ReadWrite cmd) (hzero : g.cl ≠ 0 ∧ g.dh ≠ 255) :
    ∃ d', hdCmdOut d devNr cmd count low high = .ok d' ∧
      ∀ t, (taskFile t d'.ops).decode g.sectors g.heads = (chsSector g low, count) := by
  obtain ⟨hchecked, d₁, hwait, heq⟩ := hacc.checked
  have hle := hchecked.count_le
  rw [hmode, if_neg (by decide)] at hle
  have hpos : 0 < g.cl.toNat := by
    refine Nat.pos_of_ne_zero fun heq => hzero.1 (UInt8.toNat_inj.mp heq)
  have hbyte := g.cl.toNat_lt
  set cyl := low / g.cl.toNat / g.heads % 65536 with hcyl
  set head := low / g.cl.toNat % g.heads % 16 with hhead
  have hdev := chs_device devNr hchecked.devNr head (Nat.mod_lt _ (by decide))
  refine ⟨d₁.outb (registers 0 (devNr <<< 4 ||| devChs ||| head) cmd count
    (256 * cyl + (low % g.cl.toNat + 1)) high), ?_, fun t => ?_⟩
  · rw [heq, hg.address_chs hmode hwait,
      access_pos ((stored_ne_zero_iff hg).mpr hzero), ok_bind, g.bootHeadNr_eq hzero.2,
      BiosGeometry.bootSectPerTrk, chs_eq hpos (by omega), hmode]
    rfl
  · have hsector := Nat.mod_lt low hpos
    have hcyllt : cyl < 65536 := Nat.mod_lt _ (by decide)
    have hfields : (256 * cyl + (low % g.cl.toNat + 1)) / 256 % 256 +
        256 * ((256 * cyl + (low % g.cl.toNat + 1)) / 65536 % 256) = cyl := by
      omega
    have hlast : (256 * cyl + (low % g.cl.toNat + 1)) % 256 = low % g.cl.toNat + 1 := by
      omega
    rw [(holds_registers d₁ t _ _ _ _ _ _).decode_chs hcmd.not_ext hdev.2, hdev.1, hfields,
      hlast, byteCount_mod hchecked.count_pos hle]
    rfl

/-- In CHS mode the number comes back exactly from the encodable sectors. -/
theorem faithful_chs_iff (hg : Booted d g) (hmode : d.addrMode = 0) (hcmd : ReadWrite cmd)
    (hacc : Accepted d devNr cmd count low high) :
    Faithful d g devNr cmd count low high ↔ Encodable d g low := by
  obtain ⟨hchecked, d₁, hwait, heq⟩ := hacc.checked
  have hlow : low + 2 ^ 32 * high = low := by
    rw [hchecked.high]
    rfl
  by_cases hzero : g.cl ≠ 0 ∧ g.dh ≠ 255
  · have hpos : 0 < g.cl.toNat := by
      refine Nat.pos_of_ne_zero fun heq => hzero.1 (UInt8.toNat_inj.mp heq)
    have hiff := @chs_decode_iff low g.cl.toNat g.heads hpos (Nat.succ_pos _)
    obtain ⟨d₂, hok, hdecode⟩ := hacc.chs hg hmode hcmd hzero
    constructor
    · rintro ⟨d', hok', hall⟩ -
      obtain rfl := Except.ok.inj (hok.symm.trans hok')
      have hnumber := (Prod.mk.inj ((hdecode ⟨fun _ => 0, fun _ => 0⟩).symm.trans
        (hall ⟨fun _ => 0, fun _ => 0⟩))).1
      rw [hlow] at hnumber
      exact ⟨hzero.1, hzero.2, hiff.mp hnumber⟩
    · intro henc
      refine ⟨d₂, hok, fun t => ?_⟩
      rw [hdecode, hlow, Prod.mk.injEq]
      exact ⟨hiff.mpr (henc hmode).2.2, rfl⟩
  · constructor
    · rintro ⟨d', hok, -⟩
      rw [heq, hg.address_chs hmode hwait, bind_eq_ok] at hok
      obtain ⟨_, haddr, -⟩ := hok
      obtain ⟨_, haccess, -⟩ := bind_eq_ok.mp haddr
      exact absurd ((stored_ne_zero_iff hg).mp (access_eq_ok.mp haccess)) hzero
    · intro henc
      exact absurd ⟨(henc hmode).1, (henc hmode).2.1⟩ hzero

/-! ## All modes -/

/-- The three modes together: an accepted request is faithful exactly when it is encodable. -/
theorem faithful_iff_encodable (hg : Booted d g) (hcmd : ReadWrite cmd)
    (hacc : Accepted d devNr cmd count low high) :
    Faithful d g devNr cmd count low high ↔ Encodable d g low := by
  rcases hacc.checked.1.mode with hmode | hmode | hmode
  · exact faithful_chs_iff hg hmode hcmd hacc
  · refine iff_of_true (faithful_lba28 hmode hcmd hacc) fun hchs => ?_
    rw [hmode] at hchs
    cases hchs
  · refine iff_of_true (faithful_lba48 hmode hcmd hacc) fun hchs => ?_
    rw [hmode] at hchs
    cases hchs

/-- The sector number the drive reads out of what a request wrote. -/
def addressed (g : BiosGeometry) (t : TaskFile) (d : Drive) : Nat :=
  ((taskFile t d.ops).decode g.sectors g.heads).1

theorem Faithful.addressed (h : Faithful d g devNr cmd count low high) (t : TaskFile)
    (hok : hdCmdOut d devNr cmd count low high = .ok d') :
    addressed g t d' = low + 2 ^ 32 * high := by
  obtain ⟨d₁, hok₁, hall⟩ := h
  obtain rfl := Except.ok.inj (hok₁.symm.trans hok)
  exact congrArg Prod.fst (hall t)

/-- The drive reads the number and the count that were asked for exactly from the encodable
sectors, so two of these that differ never address one sector. -/
theorem hdCmdOut_faithful_iff (hg : Booted d g) (hcmd : ReadWrite cmd)
    (hacc : Accepted d devNr cmd count low high) :
    (Faithful d g devNr cmd count low high ↔ Encodable d g low) ∧
      (Encodable d g low → ∀ cmd' count' low' high', ReadWrite cmd' →
        Accepted d devNr cmd' count' low' high' → Encodable d g low' →
        ∀ d₁ d₂ t, hdCmdOut d devNr cmd count low high = .ok d₁ →
          hdCmdOut d devNr cmd' count' low' high' = .ok d₂ →
          addressed g t d₁ = addressed g t d₂ → low + 2 ^ 32 * high = low' + 2 ^ 32 * high') := by
  refine ⟨faithful_iff_encodable hg hcmd hacc, ?_⟩
  intro henc cmd' count' low' high' hcmd' hacc' henc' d₁ d₂ t hok hok' hsame
  have hfirst := ((faithful_iff_encodable hg hcmd hacc).mpr henc).addressed t hok
  have hsecond := ((faithful_iff_encodable hg hcmd' hacc').mpr henc').addressed t hok'
  exact hfirst.symm.trans (hsame.trans hsecond)

/-! ## Two drives -/

/-- A drive in CHS mode that is never busy, with the geometry setup.asm stored. -/
def chsDrive (g : BiosGeometry) : Drive where
  addrMode := 0
  sectPerTrk := g.bootSectPerTrk
  headNr := g.bootHeadNr
  sectors := fun _ _ => 0
  status := fun _ => 0
  shown := fun _ => 0
  stray := fun _ _ => 0
  polls := 0
  transfers := 0
  ops := []
  done := []

theorem booted_chsDrive (g : BiosGeometry) : Booted (chsDrive g) g := ⟨rfl, rfl⟩

theorem ready_chsDrive (g : BiosGeometry) : (chsDrive g).Ready :=
  ⟨0, by decide, show (0 : UInt8) &&& statBusy = 0 by decide⟩

theorem accepted_chsDrive (g : BiosGeometry) {low : Nat} (hlow : low < 2 ^ 28) :
    Accepted (chsDrive g) 0 cmdRead 1 low 0 :=
  Checked.accepted ⟨by decide, by decide, show 1 ≤ 256 by decide, rfl, hlow, .inl rfl⟩
    (ready_chsDrive g)

/-- 63 sectors and 16 heads, with less than 257 cylinders. -/
def smallDisk : BiosGeometry := ⟨63, 15⟩

/-- The same with the upper cylinder bits in CL. -/
def largeDisk : BiosGeometry := ⟨255, 15⟩

theorem hdCmdOut_faithful_iff_small :
    Faithful (chsDrive smallDisk) smallDisk 0 cmdRead 1 255 0 :=
  (hdCmdOut_faithful_iff (booted_chsDrive smallDisk) (.inl rfl)
    (accepted_chsDrive smallDisk (by decide))).1.mpr (by decide)

/-- Cylinder bits in CL: of sectors 63 and 255 of the large disk, both accepted, the drive reads
the same number. -/
theorem large_disk_aliases :
    Booted (chsDrive largeDisk) largeDisk ∧
      Accepted (chsDrive largeDisk) 0 cmdRead 1 63 0 ∧
      Accepted (chsDrive largeDisk) 0 cmdRead 1 255 0 ∧
      ¬Faithful (chsDrive largeDisk) largeDisk 0 cmdRead 1 255 0 ∧
      ∃ d₁ d₂, hdCmdOut (chsDrive largeDisk) 0 cmdRead 1 63 0 = .ok d₁ ∧
        hdCmdOut (chsDrive largeDisk) 0 cmdRead 1 255 0 = .ok d₂ ∧
        ∀ t, addressed largeDisk t d₁ = 63 ∧ addressed largeDisk t d₂ = 63 := by
  have hbooted := booted_chsDrive largeDisk
  have hacc : ∀ {low}, low < 2 ^ 28 → Accepted (chsDrive largeDisk) 0 cmdRead 1 low 0 :=
    fun hlow => accepted_chsDrive largeDisk hlow
  have hzero : largeDisk.cl ≠ 0 ∧ largeDisk.dh ≠ 255 := by decide
  obtain ⟨d₁, hok₁, hdecode₁⟩ := (@hacc 63 (by decide)).chs hbooted rfl (.inl rfl) hzero
  obtain ⟨d₂, hok₂, hdecode₂⟩ := (@hacc 255 (by decide)).chs hbooted rfl (.inl rfl) hzero
  refine ⟨hbooted, hacc (by decide), hacc (by decide), ?_, d₁, d₂, hok₁, hok₂, fun t => ?_⟩
  · rw [faithful_chs_iff hbooted rfl (.inl rfl) (hacc (by decide))]
    decide
  · exact ⟨congrArg Prod.fst (hdecode₁ t), congrArg Prod.fst (hdecode₂ t)⟩

end RxdOs.Blk.HdAddress
