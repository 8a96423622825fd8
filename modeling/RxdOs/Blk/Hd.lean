/- RxdOs/Blk/Hd
   source: kernel/blk_drv/hd.c (wait_status, hd_cmd_out, hd_rdwt)
   digest: The hard disk driver against a drive that shows any status values. -/

import RxdOs.Blk.Buffer

set_option autoImplicit false
set_option relaxedAutoImplicit false

namespace RxdOs.Blk.Hd

open RxdOs.Base.Assert RxdOs.Blk.Request RxdOs.Blk.Buffer

def sectCnt : Nat := 0x1f2
def addr0 : Nat := 0x1f3
def addr1 : Nat := 0x1f4
def addr2 : Nat := 0x1f5
def device : Nat := 0x1f6
def command : Nat := 0x1f7
def features : Nat := 0x1f1
def devCtrl : Nat := 0x3f6

def devChs : Nat := 0xa0
def devLba28 : Nat := 0xe0
def devLba48 : Nat := 0x40

def cmdRead : Nat := 0x20
def cmdWrite : Nat := 0x30
def cmdRw48 : Nat := 0x04

def statErr : UInt8 := 0x01
def statDrq : UInt8 := 0x08
def statBusy : UInt8 := 0x80

def normWaitTime : Nat := 10000

/-- One access to the ports; a transfer through DATA is one whole sector. -/
inductive PortOp
  | out (port value : Nat)
  | status (value : UInt8)
  | dataIn (sector : Nat)
  | dataOut (sector : Nat)
  deriving DecidableEq

/-- The SECTOR_SIZE bytes of each sector. -/
abbrev Sectors := Nat → Fin 512 → UInt8

/-- The drive as hd_identity found it, with everything its ports are going to show: poll `polls`
of STATUS reads `status polls`, and when sector `transfers` goes through DATA the register stands
at `shown transfers`, whether it is looked at or not.  Where the drive has nothing to give, DATA
reads `stray`.  `ops` are the port accesses, latest first; `done` are the reads that the drive
has served in full and the writes that have been sent in full, latest first. -/
structure Drive where
  addrMode : Nat
  sectPerTrk : Nat
  headNr : Nat
  sectors : Sectors
  status : Nat → UInt8
  shown : Nat → UInt8
  stray : Sectors
  polls : Nat
  transfers : Nat
  ops : List PortOp
  done : List BioCmd

/-- What `inb_p(STATUS)` reads next. -/
def Drive.inbStatus (d : Drive) : UInt8 := d.status d.polls

/-- The drive once it has been read. -/
def Drive.polled (d : Drive) : Drive :=
  { d with polls := d.polls + 1, ops := .status d.inbStatus :: d.ops }

/-- `outb(port, value)` for each pair in turn. -/
def Drive.outb (d : Drive) (regs : List (Nat × Nat)) : Drive :=
  { d with ops := (regs.map fun r => .out r.1 r.2).reverse ++ d.ops }

/-- The drive serves a transfer: no BSY, no ERR, and DRQ set. -/
def Serves (v : UInt8) : Prop := v &&& (statBusy ||| statDrq ||| statErr) = statDrq

instance (v : UInt8) : Decidable (Serves v) := inferInstanceAs (Decidable (_ = _))

/-- The next `n` transfers are all served. -/
def Drive.ServesNext (d : Drive) (n : Nat) : Prop := ∀ k < n, Serves (d.shown (d.transfers + k))

instance (d : Drive) (n : Nat) : Decidable (d.ServesNext n) :=
  inferInstanceAs (Decidable (∀ k < n, _))

/-- What `port_read(DATA, p, 512)` gets where the command is at `sector`. -/
def Drive.dataIn (d : Drive) (sector : Nat) : Fin 512 → UInt8 :=
  if Serves (d.shown d.transfers) then d.sectors sector else d.stray d.transfers

/-- The drive after `port_read(DATA, p, 512)`. -/
def Drive.given (d : Drive) (sector : Nat) : Drive :=
  { d with transfers := d.transfers + 1, ops := .dataIn sector :: d.ops }

/-- The drive after `port_write(DATA, p, 512)`. -/
def Drive.taken (d : Drive) (sector : Nat) (data : Fin 512 → UInt8) : Drive :=
  { d with
    sectors := if Serves (d.shown d.transfers) then Function.update d.sectors sector data
      else d.sectors
    transfers := d.transfers + 1
    ops := .dataOut sector :: d.ops }

/-- `while (--time_out && (inb_p(STATUS) & stat) != value); return time_out;` -/
def waitStatus (stat value : UInt8) : Nat → Drive → Nat × Drive
  | 0, d => (0, d)
  | timeOut + 1, d =>
    if timeOut = 0 then (0, d)
    else if d.inbStatus &&& stat ≠ value then waitStatus stat value timeOut d.polled
    else (timeOut, d.polled)

/-- LBA -> C/H/S: the sector register with the cylinder registers above it, and the head. -/
def chs (sectPerTrk headNr nsectLow : Nat) : Nat × Nat :=
  let a0 := (nsectLow % sectPerTrk + 1) &&& 0xff
  let a1 := nsectLow / sectPerTrk
  (a0 ||| ((a1 / headNr) &&& 0xffff) <<< 8, (a1 % headNr) &&& 0x0f)

/-- The address registers by addressing mode: nsect_low, dev_reg and cmd. -/
def address (d : Drive) (devReg cmd nsectLow : Nat) : Kernel (Nat × Nat × Nat) :=
  match d.addrMode with
  | 0 => do
    access (d.sectPerTrk ≠ 0 ∧ d.headNr ≠ 0) "nsect_low % BOOT_PARAM_HD_SECT_PER_TRK"
    let (low, head) := chs d.sectPerTrk d.headNr nsectLow
    pure (low, devReg ||| devChs ||| head, cmd)
  | 1 => pure (nsectLow, devReg ||| devLba28 ||| ((nsectLow >>> 24) &&& 0x0f), cmd)
  | 2 => pure (nsectLow, devReg ||| devLba48, cmd ||| cmdRw48)
  | _ => .error (.panic "HD: unknown addring mode.")

/-- What goes to the registers, in order. -/
def registers (addrMode devReg cmd count nsectLow nsectHigh : Nat) : List (Nat × Nat) :=
  let high := [(sectCnt, (count >>> 8) &&& 0xff), (addr0, nsectLow >>> 24),
    (addr1, nsectHigh &&& 0xff), (addr2, (nsectHigh >>> 8) &&& 0xff)]
  [(devCtrl, 0), (features, 0)] ++ (if addrMode = 2 then high else []) ++
    [(sectCnt, count &&& 0xff), (addr0, nsectLow &&& 0xff), (addr1, (nsectLow >>> 8) &&& 0xff),
      (addr2, (nsectLow >>> 16) &&& 0xff), (device, devReg), (command, cmd)]

/-- "send read/write command to disk drive" -/
def hdCmdOut (d : Drive) (devNr cmd count nsectLow nsectHigh : Nat) : Kernel Drive := do
  assert (devNr ≤ 1) "dev_nr <= 1"
  if count = 0 ∨ count > (if d.addrMode = 2 then 65536 else 256) then
    .error (.panic "HD: invalid sector count.")
  else if nsectHigh ≠ 0 ∨ nsectLow ≥ 0x10000000 then
    .error (.panic "HD: sorry, the largest capacity we support now is 128GB.")
  else
    let (ready, d) := waitStatus statBusy 0 normWaitTime d
    if ready = 0 then .error (.panic "HD: controller not ready.")
    else
      let (low, devReg, cmd) ← address d (devNr <<< 4) cmd nsectLow
      pure (d.outb (registers d.addrMode devReg cmd count low nsectHigh))

/-- Bytes `512 k` to `512 k + 511` of a buffer. -/
def setHalf (block : Block) (k : Nat) (data : Fin 512 → UInt8) : Block := fun i =>
  if i / 512 = k then data ⟨i % 512, inHalf_lt i⟩ else block i

def half (block : Block) (k : Nat) (j : Fin 512) : UInt8 :=
  block (Fin.ofNat 1024 (512 * k + j))

/-- `port_read(DATA, p, 512)` for `n` sectors from the `k`-th on; a buffer has room for two. -/
def readSectors (cmd : BioCmd) : Nat → Nat → Ram → Drive → Kernel (Ram × Drive)
  | 0, _, ram, d => pure (ram, d)
  | n + 1, k, ram, d => do
    access (k < sectorsPerBlk) "port_read(DATA, p, 512)"
    let ram := Function.update ram cmd.buffer
      (setHalf (ram cmd.buffer) k (d.dataIn (cmd.sector + k)))
    readSectors cmd n (k + 1) ram (d.given (cmd.sector + k))

/-- `port_write(DATA, p, 512)` for `n` sectors, each once the drive asks for data. -/
def writeSectors (cmd : BioCmd) : Nat → Nat → Ram → Drive → Kernel Drive
  | 0, _, _, d => pure d
  | n + 1, k, ram, d => do
    let (ready, d) := waitStatus statDrq statDrq normWaitTime d
    if ready = 0 then .error (.panic "HD: writing error.")
    else
      access (k < sectorsPerBlk) "port_write(DATA, p, 512)"
      writeSectors cmd n (k + 1) ram (d.taken (cmd.sector + k) (half (ram cmd.buffer) k))

/-- The command goes on record. -/
def Drive.finished (d : Drive) (cmd : BioCmd) : Drive := { d with done := cmd :: d.done }

/-- hd_rdwt on DEFAULT_DISK, with its return value; start_sect is an int. -/
def hdRdwt (cmd : BioCmd) (m : Ram × Drive) : Kernel (Int × Ram × Drive) := do
  assert (cmd.sector < 2 ^ 31 ∧ cmd.count > 0) "start_sect >= 0 && sect_cnt > 0"
  let (ready, d) := waitStatus statBusy 0 normWaitTime m.2
  if ready = 0 then pure (-1, m.1, d)
  else if cmd.rw = bioRead then
    let d ← hdCmdOut d 0 cmdRead cmd.count cmd.sector 0
    let (ram, d') ← readSectors cmd cmd.count 0 m.1 d
    pure (0, ram, if d.ServesNext cmd.count then d'.finished cmd else d')
  else if cmd.rw = bioWrite then
    let d ← hdCmdOut d 0 cmdWrite cmd.count cmd.sector 0
    let d ← writeSectors cmd cmd.count 0 m.1 d
    pure (0, m.1, d.finished cmd)
  else .error (.panic "HD: unknown cmd")

/-- hd_rdwt as hd_handle_request calls it: what it returns is dropped. -/
def hdRequest (cmd : BioCmd) (m : Ram × Drive) : Kernel (Ram × Drive) := do
  let (_, m) ← hdRdwt cmd m
  pure m

/-! ## Waiting -/

variable {d d' : Drive} {stat value : UInt8} {n : Nat}

/-- Waiting moves nothing but the polls. -/
structure Waited (d d' : Drive) : Prop where
  addrMode : d'.addrMode = d.addrMode
  sectPerTrk : d'.sectPerTrk = d.sectPerTrk
  headNr : d'.headNr = d.headNr
  sectors : d'.sectors = d.sectors
  status : d'.status = d.status
  shown : d'.shown = d.shown
  stray : d'.stray = d.stray
  transfers : d'.transfers = d.transfers
  done : d'.done = d.done

theorem Waited.refl (d : Drive) : Waited d d := ⟨rfl, rfl, rfl, rfl, rfl, rfl, rfl, rfl, rfl⟩

theorem Waited.trans {d₁ d₂ d₃ : Drive} (h : Waited d₁ d₂) (h' : Waited d₂ d₃) :
    Waited d₁ d₃ where
  addrMode := h'.addrMode.trans h.addrMode
  sectPerTrk := h'.sectPerTrk.trans h.sectPerTrk
  headNr := h'.headNr.trans h.headNr
  sectors := h'.sectors.trans h.sectors
  status := h'.status.trans h.status
  shown := h'.shown.trans h.shown
  stray := h'.stray.trans h.stray
  transfers := h'.transfers.trans h.transfers
  done := h'.done.trans h.done

theorem waited_polled (d : Drive) : Waited d d.polled :=
  ⟨rfl, rfl, rfl, rfl, rfl, rfl, rfl, rfl, rfl⟩

theorem waited_outb (d : Drive) (regs : List (Nat × Nat)) : Waited d (d.outb regs) :=
  ⟨rfl, rfl, rfl, rfl, rfl, rfl, rfl, rfl, rfl⟩

theorem Waited.servesNext (h : Waited d d') (n : Nat) : d'.ServesNext n ↔ d.ServesNext n := by
  simp only [Drive.ServesNext, h.shown, h.transfers]

theorem waitStatus_waited (stat value : UInt8) (n : Nat) (d : Drive) :
    Waited d (waitStatus stat value n d).2 := by
  induction n generalizing d with
  | zero => exact .refl d
  | succ n ih =>
    rw [waitStatus]
    split_ifs
    · exact .refl d
    · exact (waited_polled d).trans (ih d.polled)
    · exact waited_polled d

/-- wait_status gives up exactly when none of its polls shows the value. -/
theorem waitStatus_eq_zero_iff (stat value : UInt8) (n : Nat) (d : Drive) :
    (waitStatus stat value n d).1 = 0 ↔
      ∀ i, i + 1 < n → d.status (d.polls + i) &&& stat ≠ value := by
  induction n generalizing d with
  | zero =>
    refine ⟨fun _ i hi => ?_, fun _ => rfl⟩
    omega
  | succ n ih =>
    rw [waitStatus]
    by_cases hn : n = 0
    · rw [if_pos hn]
      refine ⟨fun _ i hi => ?_, fun _ => rfl⟩
      omega
    · rw [if_neg hn]
      by_cases hs : d.inbStatus &&& stat ≠ value
      · rw [if_pos hs, ih]
        have hpolls : ∀ i, d.polled.status (d.polled.polls + i) = d.status (d.polls + (i + 1)) :=
          fun i => congrArg d.status (by rw [Nat.add_comm i 1, ← Nat.add_assoc]; rfl)
        simp only [hpolls]
        constructor
        · intro hall i hi
          cases i with
          | zero => exact hs
          | succ i => exact hall i (by omega)
        · intro hall i hi
          exact hall (i + 1) (by omega)
      · rw [if_neg hs]
        refine ⟨fun hzero => absurd hzero hn, fun hall => absurd (hall 0 (by omega)) hs⟩

/-- BSY is clear in one of the polls hd_rdwt starts with. -/
def Drive.Ready (d : Drive) : Prop :=
  ∃ i, i + 1 < normWaitTime ∧ d.status (d.polls + i) &&& statBusy = 0

theorem ready_iff (d : Drive) : d.Ready ↔ (waitStatus statBusy 0 normWaitTime d).1 ≠ 0 := by
  rw [ne_eq, waitStatus_eq_zero_iff, Drive.Ready]
  push Not
  rfl

/-! ## What the driver has done when it returns -/

section Driver

variable {cmd : BioCmd} {m m' : Ram × Drive}

/-- What the drive is going to show does not depend on the driver. -/
structure SameShow (d d' : Drive) : Prop where
  status : d'.status = d.status
  shown : d'.shown = d.shown

theorem SameShow.trans {d₁ d₂ d₃ : Drive} (h : SameShow d₁ d₂) (h' : SameShow d₂ d₃) :
    SameShow d₁ d₃ :=
  ⟨h'.status.trans h.status, h'.shown.trans h.shown⟩

theorem Waited.sameShow (h : Waited d d') : SameShow d d' := ⟨h.status, h.shown⟩

/-- Registers are written after another wait. -/
theorem hdCmdOut_ok {devNr code count low high : Nat}
    (h : hdCmdOut d devNr code count low high = .ok d') : Waited d d' := by
  have hwait := waitStatus_waited statBusy 0 normWaitTime d
  simp only [hdCmdOut, bind_eq_ok, ite_error_eq_ok, pure_eq_ok, Except.ok.injEq] at h
  obtain ⟨_, -, -, -, -, _, -, rfl⟩ := h
  exact hwait.trans (waited_outb _ _)

/-- Reading moves sectors into the buffer and nowhere else. -/
structure SectorsRead (cmd : BioCmd) (n k : Nat) (ram ram' : Ram) (d d' : Drive) : Prop where
  done : d'.done = d.done
  sectors : d'.sectors = d.sectors
  sameShow : SameShow d d'
  others : ∀ a, a ≠ cmd.buffer → ram' a = ram a
  bytes : d.ServesNext n → ∀ i : Fin 1024, ram' cmd.buffer i =
    if k ≤ i / 512 ∧ i.val / 512 < k + n then
      d.sectors (cmd.sector + i / 512) ⟨i % 512, inHalf_lt i⟩
    else ram cmd.buffer i

theorem readSectors_ok {k : Nat} {ram ram' : Ram}
    (h : readSectors cmd n k ram d = .ok (ram', d')) : SectorsRead cmd n k ram ram' d d' := by
  induction n generalizing k ram d with
  | zero =>
    simp only [readSectors, pure_eq_ok, Except.ok.injEq, Prod.mk.injEq] at h
    obtain ⟨rfl, rfl⟩ := h
    refine ⟨rfl, rfl, ⟨rfl, rfl⟩, fun _ _ => rfl, fun _ i => ?_⟩
    rw [if_neg (by omega)]
  | succ n ih =>
    simp only [readSectors, bind_eq_ok] at h
    obtain ⟨_, -, h⟩ := h
    have hrest := ih h
    refine ⟨hrest.done, hrest.sectors, ⟨hrest.sameShow.status, hrest.sameShow.shown⟩, ?_, ?_⟩
    · intro a ha
      rw [hrest.others a ha, Function.update_of_ne ha]
    · intro hserves i
      have hnext : (d.given (cmd.sector + k)).ServesNext n := by
        intro j hj
        have hlater := hserves (j + 1) (by omega)
        rw [← Nat.add_assoc, Nat.add_right_comm] at hlater
        exact hlater
      have hnow : d.dataIn (cmd.sector + k) = d.sectors (cmd.sector + k) :=
        if_pos (hserves 0 (Nat.succ_pos n))
      rw [hrest.bytes hnext i, Function.update_self, setHalf, hnow]
      by_cases hk : (i : Nat) / 512 = k
      · rw [if_neg (by omega), if_pos hk, if_pos (by omega), hk]
      · rw [if_neg hk]
        exact if_congr (by omega) rfl rfl

theorem writeSectors_ok {k : Nat} {ram : Ram} (h : writeSectors cmd n k ram d = .ok d') :
    d'.done = d.done ∧ SameShow d d' := by
  induction n generalizing k d with
  | zero =>
    simp only [writeSectors, pure_eq_ok, Except.ok.injEq] at h
    exact ⟨congrArg Drive.done h.symm, ⟨congrArg Drive.status h.symm, congrArg Drive.shown h.symm⟩⟩
  | succ n ih =>
    simp only [writeSectors, ite_error_eq_ok, bind_eq_ok] at h
    obtain ⟨-, _, -, h⟩ := h
    have hwait := waitStatus_waited statDrq statDrq normWaitTime d
    obtain ⟨hdone, hshow⟩ := ih h
    exact ⟨hdone.trans hwait.done, hwait.sameShow.trans ⟨hshow.status, hshow.shown⟩⟩

/-- What a call that returns has done: it gave up, or it read, or it wrote. -/
inductive Carried (cmd : BioCmd) (m : Ram × Drive) : Ram × Drive → Prop
  | busy {d' : Drive} (hready : ¬m.2.Ready) (hwait : Waited m.2 d') : Carried cmd m (m.1, d')
  | read {d₁ d' : Drive} {ram' : Ram} (hrw : cmd.rw = bioRead) (hready : m.2.Ready)
      (hwait : Waited m.2 d₁) (hread : SectorsRead cmd cmd.count 0 m.1 ram' d₁ d') :
      Carried cmd m (ram', if d₁.ServesNext cmd.count then d'.finished cmd else d')
  | write {d' : Drive} (hrw : cmd.rw = bioWrite) (hready : m.2.Ready)
      (hdone : d'.done = m.2.done) (hshow : SameShow m.2 d') :
      Carried cmd m (m.1, d'.finished cmd)

theorem hdRequest_ok (h : hdRequest cmd m = .ok m') : Carried cmd m m' := by
  have hwait := waitStatus_waited statBusy 0 normWaitTime m.2
  simp only [hdRequest, bind_eq_ok, pure_eq_ok, Except.ok.injEq] at h
  obtain ⟨r, hr, rfl⟩ := h
  simp only [hdRdwt, bind_eq_ok] at hr
  obtain ⟨_, -, hr⟩ := hr
  split_ifs at hr with hready hread hwrite
  · simp only [pure_eq_ok, Except.ok.injEq] at hr
    obtain rfl := hr
    exact .busy (fun h => (ready_iff _).mp h hready) hwait
  · simp only [bind_eq_ok, pure_eq_ok, Except.ok.injEq] at hr
    obtain ⟨d₁, hcmd, ⟨ram, d₂⟩, htransfer, rfl⟩ := hr
    exact .read hread ((ready_iff _).mpr hready) (hwait.trans (hdCmdOut_ok hcmd))
      (readSectors_ok htransfer)
  · simp only [bind_eq_ok, pure_eq_ok, Except.ok.injEq] at hr
    obtain ⟨d₁, hcmd, d₂, htransfer, rfl⟩ := hr
    obtain ⟨hdone, hshow⟩ := writeSectors_ok htransfer
    have hwait₁ := hwait.trans (hdCmdOut_ok hcmd)
    exact .write hwrite ((ready_iff _).mpr hready) (hdone.trans hwait₁.done)
      (hwait₁.sameShow.trans hshow)

/-- Memory outside the buffer of the command is left alone. -/
theorem Carried.others (h : Carried cmd m m') {a : Int} (ha : a ≠ cmd.buffer) :
    m'.1 a = m.1 a := by
  cases h with
  | busy _ _ => rfl
  | read _ _ _ hread => exact hread.others a ha
  | write _ _ _ _ => rfl

theorem Carried.sameShow (h : Carried cmd m m') : SameShow m.2 m'.2 := by
  cases h with
  | busy _ hwait => exact hwait.sameShow
  | read _ _ hwait hread =>
    have hshow := hwait.sameShow.trans hread.sameShow
    show SameShow m.2 (if _ then _ else _)
    split_ifs
    · exact ⟨hshow.status, hshow.shown⟩
    · exact hshow
  | write _ _ _ hshow => exact ⟨hshow.status, hshow.shown⟩

/-- A read goes on record exactly when the drive gets ready and serves all of it. -/
theorem Carried.read_done_iff (h : Carried cmd m m') (hrw : cmd.rw = bioRead) :
    m'.2.done = cmd :: m.2.done ↔ m.2.Ready ∧ m.2.ServesNext cmd.count := by
  have hne : m.2.done ≠ cmd :: m.2.done := (List.cons_ne_self _ _).symm
  cases h with
  | busy hready hwait =>
    refine iff_of_false (fun hdone => hne (hwait.done.symm.trans hdone)) fun h => hready h.1
  | read _ hready hwait hread =>
    have hdone := hread.done.trans hwait.done
    by_cases hserves : m.2.ServesNext cmd.count
    · refine iff_of_true ?_ ⟨hready, hserves⟩
      rw [if_pos ((hwait.servesNext _).mpr hserves)]
      exact congrArg (cmd :: ·) hdone
    · refine iff_of_false ?_ fun h => hserves h.2
      rw [if_neg fun h => hserves ((hwait.servesNext _).mp h)]
      exact fun heq => hne (hdone.symm.trans heq)
  | write hwrite _ _ _ => exact absurd (hrw.symm.trans hwrite) (by decide)

/-- A read on record has brought the addressed sectors into the buffer. -/
theorem Carried.read_bytes (h : Carried cmd m m') (hrw : cmd.rw = bioRead)
    (hready : m.2.Ready) (hserves : m.2.ServesNext cmd.count) (i : Fin 1024)
    (hi : (i : Nat) / 512 < cmd.count) :
    m'.1 cmd.buffer i = m.2.sectors (cmd.sector + i / 512) ⟨i % 512, inHalf_lt i⟩ := by
  cases h with
  | busy hbusy _ => exact absurd hready hbusy
  | read _ _ hwait hread =>
    have hbyte := hread.bytes ((hwait.servesNext _).mpr hserves) i
    rw [if_pos (by omega), hwait.sectors] at hbyte
    exact hbyte
  | write hwrite _ _ _ => exact absurd (hrw.symm.trans hwrite) (by decide)

/-- A write leaves memory alone and goes on record unless the drive stays busy. -/
theorem Carried.write_done (h : Carried cmd m m') (hrw : cmd.rw = bioWrite) :
    m'.1 = m.1 ∧ (m'.2.done = m.2.done ∨ m'.2.done = cmd :: m.2.done) := by
  cases h with
  | busy _ hwait => exact ⟨rfl, .inl hwait.done⟩
  | read hread _ _ _ => exact absurd (hread.symm.trans hrw) (by decide)
  | write _ _ hdone _ => exact ⟨rfl, .inr (congrArg (cmd :: ·) hdone)⟩

end Driver

end RxdOs.Blk.Hd
