/- RxdOs/Blk/PioWait
   source: kernel/blk_drv/hd.c (hd_rdwt, hd_cmd_out, wait_status)
   digest: hd_rdwt access by access, for any number of sectors and any status values: what it has
   seen of the status port when it goes to the data port. -/

import RxdOs.Blk.HdAddress

set_option autoImplicit false
set_option relaxedAutoImplicit false

namespace RxdOs.Blk.PioWait

open RxdOs.Base.Assert RxdOs.Blk.Request RxdOs.Blk.Buffer RxdOs.Blk.Hd
open RxdOs.Blk.HdAddress (Checked)

/-- The drive, and the memory that `p` runs through. -/
structure Pio where
  drive : Drive
  mem : Int → UInt8

/-- `port_read(DATA, p, 512)` -/
def portRead (s : Pio) (sector : Nat) (p : Int) : Pio where
  drive := s.drive.given sector
  mem a := if p ≤ a ∧ a < p + 512 then s.drive.dataIn sector (Fin.ofNat 512 (a - p).toNat)
    else s.mem a

/-- `port_write(DATA, p, 512)` -/
def portWrite (s : Pio) (sector : Nat) (p : Int) : Pio := { s with
  drive := s.drive.taken sector fun i => s.mem (p + (i : Nat)) }

/-- The loop under READ. -/
def readLoop : Nat → Nat → Int → Pio → Pio
  | 0, _, _, s => s
  | sectCnt + 1, sector, p, s => readLoop sectCnt (sector + 1) (p + 512) (portRead s sector p)

/-- The loop under WRITE, with what it stops with. -/
def writeLoop : Nat → Nat → Int → Pio → Kernel Unit × Pio
  | 0, _, _, s => (.ok (), s)
  | sectCnt + 1, sector, p, s =>
    let (ready, d) := waitStatus statDrq statDrq normWaitTime s.drive
    if ready = 0 then (.error (.panic "HD: writing error."), { s with drive := d })
    else writeLoop sectCnt (sector + 1) (p + 512) (portWrite { s with drive := d } sector p)

/-- hd_rdwt, with what it returns or stops with and where it leaves the drive.  The polls of an
hd_cmd_out that stops are not kept; nothing follows them. -/
def hdRdwt (cmd : BioCmd) (s : Pio) : Kernel Int × Pio :=
  match assert (cmd.sector < 2 ^ 31 ∧ cmd.count > 0) "start_sect >= 0 && sect_cnt > 0" with
  | .error e => (.error e, s)
  | .ok () =>
    let (ready, d) := waitStatus statBusy 0 normWaitTime s.drive
    if ready = 0 then (.ok (-1), { s with drive := d })
    else if cmd.rw = bioRead then
      match hdCmdOut d 0 cmdRead cmd.count cmd.sector 0 with
      | .error e => (.error e, { s with drive := d })
      | .ok d => (.ok 0, readLoop cmd.count cmd.sector cmd.buffer { s with drive := d })
    else if cmd.rw = bioWrite then
      match hdCmdOut d 0 cmdWrite cmd.count cmd.sector 0 with
      | .error e => (.error e, { s with drive := d })
      | .ok d =>
        let (r, s) := writeLoop cmd.count cmd.sector cmd.buffer { s with drive := d }
        (r.map fun _ => 0, s)
    else (.error (.panic "HD: unknown cmd"), { s with drive := d })

/-! ## The rule -/

/-- BSY clear and DRQ set. -/
def Asks (v : UInt8) : Prop := v &&& statBusy = 0 ∧ v &&& statDrq = statDrq

/-- Since the last command or sector the drive has been seen to ask for data; the accesses are
listed latest first. -/
def Observed : List PortOp → Prop
  | [] => False
  | .status v :: ops => Asks v ∨ Observed ops
  | .out port _ :: ops => port ≠ command ∧ Observed ops
  | .dataIn _ :: _ => False
  | .dataOut _ :: _ => False

/-- Every access to the data port comes after such an observation. -/
def Waits : List PortOp → Prop
  | [] => True
  | .status _ :: ops => Waits ops
  | .out _ _ :: ops => Waits ops
  | .dataIn _ :: ops => Observed ops ∧ Waits ops
  | .dataOut _ :: ops => Observed ops ∧ Waits ops

/-- The sectors that went through the data port, latest first. -/
def transferred : List PortOp → List Nat
  | [] => []
  | .status _ :: ops => transferred ops
  | .out _ _ :: ops => transferred ops
  | .dataIn sector :: ops => sector :: transferred ops
  | .dataOut sector :: ops => sector :: transferred ops

/-- A call of its own: no port has been accessed yet. -/
def Pio.fresh (s : Pio) : Pio := { s with drive := { s.drive with ops := [] } }

/-- The call stops, returns -1, or transfers all its sectors in order, and keeps to the rule. -/
structure PioOk (cmd : BioCmd) (s : Pio) : Prop where
  outcome : (∃ e, (hdRdwt cmd s.fresh).1 = .error e) ∨ (hdRdwt cmd s.fresh).1 = .ok (-1) ∨
    (hdRdwt cmd s.fresh).1 = .ok 0 ∧ transferred (hdRdwt cmd s.fresh).2.drive.ops =
      ((List.range cmd.count).map (cmd.sector + ·)).reverse
  waits : Waits (hdRdwt cmd s.fresh).2.drive.ops

/-! ## Polls -/

/-- The first of fewer than `normWaitTime` polls from `p` on that shows the value. -/
structure FirstPoll (status : Nat → UInt8) (stat value : UInt8) (p i : Nat) : Prop where
  inTime : i + 1 < normWaitTime
  before : ∀ j < i, status (p + j) &&& stat ≠ value
  shows : status (p + i) &&& stat = value

/-- `k` polls from `p` on, latest first. -/
def pollOps (status : Nat → UInt8) (p : Nat) : Nat → List PortOp
  | 0 => []
  | k + 1 => .status (status (p + k)) :: pollOps status p k

def afterPolls (d : Drive) (k : Nat) : Drive :=
  { d with polls := d.polls + k, ops := pollOps d.status d.polls k ++ d.ops }

section Polls

variable {d : Drive} {stat value : UInt8} {status : Nat → UInt8} {ops : List PortOp}
  {n p i j k : Nat}

theorem FirstPoll.unique (h : FirstPoll status stat value p i)
    (h' : FirstPoll status stat value p j) : i = j := by
  rcases lt_trichotomy i j with hlt | heq | hgt
  · exact absurd h.shows (h'.before i hlt)
  · exact heq
  · exact absurd h'.shows (h.before j hgt)

theorem pollOps_first (status : Nat → UInt8) (p k : Nat) :
    pollOps status (p + 1) k ++ [.status (status p)] = pollOps status p (k + 1) := by
  induction k with
  | zero => rfl
  | succ k ih =>
    rw [pollOps, List.cons_append, ih, Nat.add_assoc, Nat.add_comm 1 k]
    rfl

theorem afterPolls_polled (d : Drive) (k : Nat) :
    afterPolls d.polled k = afterPolls d (k + 1) := by
  have hops : pollOps d.status (d.polls + 1) k ++ (.status d.inbStatus :: d.ops) =
      pollOps d.status d.polls (k + 1) ++ d.ops := by
    rw [← pollOps_first, List.append_assoc]
    rfl
  have hpolls : d.polls + 1 + k = d.polls + (k + 1) := by omega
  simp only [afterPolls, Drive.polled, hops, hpolls]

theorem waitStatus_first (hi : i + 1 < n) (hbefore : ∀ j < i, d.status (d.polls + j) &&& stat ≠ value)
    (hshows : d.status (d.polls + i) &&& stat = value) :
    (waitStatus stat value n d).1 ≠ 0 ∧ (waitStatus stat value n d).2 = afterPolls d (i + 1) := by
  induction n generalizing i d with
  | zero => exact absurd hi (Nat.not_lt_zero _)
  | succ n ih =>
    rw [waitStatus, if_neg (by omega)]
    cases i with
    | zero =>
      have hnow : ¬d.inbStatus &&& stat ≠ value := not_not.mpr hshows
      rw [if_neg hnow]
      exact ⟨by omega, rfl⟩
    | succ i =>
      have hnext : ∀ j, d.polled.status (d.polled.polls + j) = d.status (d.polls + (j + 1)) :=
        fun j => congrArg d.status (by rw [Nat.add_comm j 1, ← Nat.add_assoc]; rfl)
      have hnow : d.inbStatus &&& stat ≠ value := hbefore 0 (Nat.succ_pos i)
      rw [if_pos hnow, ← afterPolls_polled]
      refine ih (by omega) (fun j hj => ?_) ?_
      · rw [hnext]
        exact hbefore (j + 1) (by omega)
      · rw [hnext]
        exact hshows

theorem waitStatus_none (hnone : ∀ i, i + 1 < n → d.status (d.polls + i) &&& stat ≠ value) :
    waitStatus stat value n d = (0, afterPolls d (n - 1)) := by
  induction n generalizing d with
  | zero => rfl
  | succ n ih =>
    rw [waitStatus]
    split_ifs with hn hpoll
    · rw [hn]
      rfl
    · have hnext : ∀ j, d.polled.status (d.polled.polls + j) = d.status (d.polls + (j + 1)) :=
        fun j => congrArg d.status (by rw [Nat.add_comm j 1, ← Nat.add_assoc]; rfl)
      obtain ⟨k, rfl⟩ := Nat.exists_eq_succ_of_ne_zero hn
      rw [ih fun i hi => by rw [hnext]; exact hnone (i + 1) (by omega), afterPolls_polled]
      rfl
    · exact absurd (not_not.mp hpoll) (hnone 0 (by omega))

/-- wait_status either stops at the first poll that shows the value, or gives up. -/
theorem waitStatus_cases (stat value : UInt8) (d : Drive) :
    (∃ i, FirstPoll d.status stat value d.polls i ∧
      (waitStatus stat value normWaitTime d).1 ≠ 0 ∧
      (waitStatus stat value normWaitTime d).2 = afterPolls d (i + 1)) ∨
    (∀ i, ¬FirstPoll d.status stat value d.polls i) ∧
      ∃ k, waitStatus stat value normWaitTime d = (0, afterPolls d k) := by
  by_cases hex : ∃ i, i + 1 < normWaitTime ∧ d.status (d.polls + i) &&& stat = value
  · have hsome : ∃ i, d.status (d.polls + i) &&& stat = value := hex.imp fun _ h => h.2
    obtain ⟨k, hk, hshows⟩ := hex
    have hin : Nat.find hsome + 1 < normWaitTime :=
      (Nat.succ_le_succ (Nat.find_min' hsome hshows)).trans_lt hk
    have hfirst : FirstPoll d.status stat value d.polls (Nat.find hsome) :=
      ⟨hin, fun j hj => Nat.find_min hsome hj, Nat.find_spec hsome⟩
    exact .inl ⟨_, hfirst, waitStatus_first hin hfirst.before hfirst.shows⟩
  · push Not at hex
    exact .inr ⟨fun i h => hex i h.inTime h.shows, _, waitStatus_none hex⟩

theorem observed_pollOps : Observed (pollOps status p k ++ ops) ↔
    (∃ j < k, Asks (status (p + j))) ∨ Observed ops := by
  induction k with
  | zero => simp [pollOps]
  | succ k ih =>
    rw [pollOps, List.cons_append, Observed, ih, ← or_assoc]
    refine or_congr_left ⟨?_, ?_⟩
    · rintro (hlast | ⟨j, hj, hasks⟩)
      · exact ⟨k, Nat.lt_succ_self k, hlast⟩
      · exact ⟨j, by omega, hasks⟩
    · rintro ⟨j, hj, hasks⟩
      rcases Nat.lt_succ_iff_lt_or_eq.mp hj with hlt | rfl
      · exact .inr ⟨j, hlt, hasks⟩
      · exact .inl hasks

theorem waits_pollOps : Waits (pollOps status p k ++ ops) ↔ Waits ops := by
  induction k with
  | zero => rfl
  | succ k ih => rw [pollOps, List.cons_append, Waits, ih]

theorem waits_afterPolls : Waits (afterPolls d k).ops ↔ Waits d.ops := waits_pollOps

theorem transferred_pollOps : transferred (pollOps status p k ++ ops) = transferred ops := by
  induction k with
  | zero => rfl
  | succ k ih => rw [pollOps, List.cons_append, transferred, ih]

end Polls

/-! ## Requests -/

/-- What the checks on the way to the first sector let through. -/
structure Passes (cmd : BioCmd) (d : Drive) : Prop where
  checked : Checked d 0 cmd.count cmd.sector 0
  geometry : d.addrMode = 0 → d.sectPerTrk ≠ 0 ∧ d.headNr ≠ 0

/-- The registers of a command, the command register last. -/
def commandRegs (regs : List (Nat × Nat)) : Prop := ∃ init code, regs = init ++ [(command, code)]

section Requests

variable {cmd : BioCmd} {d d' : Drive} {ops : List PortOp} {code j : Nat}

theorem commandRegs_registers (addrMode devReg cmd count low high : Nat) :
    commandRegs (registers addrMode devReg cmd count low high) := by
  refine ⟨(registers addrMode devReg cmd count low high).dropLast, cmd, ?_⟩
  unfold registers
  split_ifs <;> rfl

theorem observed_outb {regs : List (Nat × Nat)} (h : commandRegs regs) :
    ¬Observed (d.outb regs).ops := by
  obtain ⟨init, code, rfl⟩ := h
  simp [Drive.outb, Observed]

theorem waits_outs (outs : List (Nat × Nat)) :
    Waits ((outs.map fun r => .out r.1 r.2) ++ ops) ↔ Waits ops := by
  induction outs with
  | nil => rfl
  | cons r outs ih => rw [List.map_cons, List.cons_append, Waits, ih]

theorem transferred_outs (outs : List (Nat × Nat)) :
    transferred ((outs.map fun r => .out r.1 r.2) ++ ops) = transferred ops := by
  induction outs with
  | nil => rfl
  | cons r outs ih => rw [List.map_cons, List.cons_append, transferred, ih]

theorem waits_outb (regs : List (Nat × Nat)) : Waits (d.outb regs).ops ↔ Waits d.ops := by
  rw [Drive.outb, ← List.map_reverse]
  exact waits_outs _

theorem transferred_outb (regs : List (Nat × Nat)) :
    transferred (d.outb regs).ops = transferred d.ops := by
  rw [Drive.outb, ← List.map_reverse]
  exact transferred_outs _

/-- hd_cmd_out writes the registers when the request passes and the drive gets ready again. -/
theorem hdCmdOut_passes (hpass : Passes cmd d) (hj : FirstPoll d.status statBusy 0 d.polls j) :
    ∃ regs, commandRegs regs ∧
      hdCmdOut d 0 code cmd.count cmd.sector 0 = .ok ((afterPolls d (j + 1)).outb regs) := by
  obtain ⟨hready, hdrive⟩ := waitStatus_first hj.inTime hj.before hj.shows
  have hchecked := hpass.checked
  have hcount : ¬(cmd.count = 0 ∨ cmd.count > if d.addrMode = 2 then 65536 else 256) :=
    not_or.mpr ⟨hchecked.count_pos, not_lt.mpr hchecked.count_le⟩
  have hhigh : ¬((0 : Nat) ≠ 0 ∨ cmd.sector ≥ 0x10000000) :=
    not_or.mpr ⟨not_not.mpr rfl, not_le.mpr hchecked.low⟩
  simp only [hdCmdOut, assert_pos hchecked.devNr, ok_bind, if_neg hcount, if_neg hhigh,
    if_neg hready, hdrive]
  have hmode : (afterPolls d (j + 1)).addrMode = d.addrMode := rfl
  rcases hchecked.mode with h | h | h
  · have hgeometry : (afterPolls d (j + 1)).sectPerTrk ≠ 0 ∧ (afterPolls d (j + 1)).headNr ≠ 0 :=
      hpass.geometry h
    simp only [address, hmode, h, access_pos hgeometry, ok_bind]
    exact ⟨_, commandRegs_registers .., rfl⟩
  · simp only [address, hmode, h]
    exact ⟨_, commandRegs_registers .., rfl⟩
  · simp only [address, hmode, h]
    exact ⟨_, commandRegs_registers .., rfl⟩

theorem address_ok {devReg low : Nat} {r : Nat × Nat × Nat}
    (h : address d devReg code low = .ok r) :
    (d.addrMode = 0 ∨ d.addrMode = 1 ∨ d.addrMode = 2) ∧
      (d.addrMode = 0 → d.sectPerTrk ≠ 0 ∧ d.headNr ≠ 0) := by
  unfold address at h
  split at h
  · simp only [bind_eq_ok, access_eq_ok] at h
    obtain ⟨_, hgeometry, -⟩ := h
    exact ⟨by tauto, fun _ => hgeometry⟩
  · exact ⟨by tauto, fun h0 => by omega⟩
  · exact ⟨by tauto, fun h0 => by omega⟩
  · cases h

/-- A call of hd_cmd_out that returns has let the request pass, on a drive that got ready. -/
theorem hdCmdOut_passed (h : hdCmdOut d 0 code cmd.count cmd.sector 0 = .ok d') :
    Passes cmd d ∧ ∃ j, FirstPoll d.status statBusy 0 d.polls j := by
  rcases waitStatus_cases statBusy 0 d with ⟨j, hj, hready, hdrive⟩ | ⟨-, k, hnone⟩
  · simp only [hdCmdOut, bind_eq_ok, ite_error_eq_ok, if_neg hready, hdrive] at h
    obtain ⟨_, hdev, hcount, hhigh, _, haddr, -⟩ := h
    obtain ⟨hmode, hgeometry⟩ := address_ok haddr
    obtain ⟨hpos, hle⟩ := not_or.mp hcount
    obtain ⟨-, hlow⟩ := not_or.mp hhigh
    exact ⟨⟨⟨assert_eq_ok.mp hdev, hpos, not_lt.mp hle, rfl, not_le.mp hlow, hmode⟩, hgeometry⟩,
      j, hj⟩
  · simp only [hdCmdOut, bind_eq_ok, ite_error_eq_ok, hnone, if_true, reduceCtorEq, and_false,
      exists_false] at h

theorem Passes.congr (h : Passes cmd d) (hmode : d'.addrMode = d.addrMode)
    (hspt : d'.sectPerTrk = d.sectPerTrk) (hheads : d'.headNr = d.headNr) : Passes cmd d' := by
  obtain ⟨⟨hdev, hpos, hle, hhigh, hlow, hadr⟩, hgeometry⟩ := h
  rw [← hmode] at hle hadr hgeometry
  rw [← hspt, ← hheads] at hgeometry
  exact ⟨⟨hdev, hpos, hle, hhigh, hlow, hadr⟩, hgeometry⟩

theorem hdCmdOut_stops (code : Nat)
    (h : ¬(Passes cmd d ∧ ∃ j, FirstPoll d.status statBusy 0 d.polls j)) :
    ∃ e, hdCmdOut d 0 code cmd.count cmd.sector 0 = .error e := by
  cases hcall : hdCmdOut d 0 code cmd.count cmd.sector 0 with
  | error e => exact ⟨e, rfl⟩
  | ok d' => exact absurd (hdCmdOut_passed hcall) h

end Requests

/-! ## Sectors -/

/-- Each status value that ends the wait for a sector has BSY clear, as far as the waits end. -/
def DrqClean (status : Nat → UInt8) : Nat → Nat → Prop
  | 0, _ => True
  | sectCnt + 1, p => ∀ i, FirstPoll status statDrq statDrq p i →
    status (p + i) &&& statBusy = 0 ∧ DrqClean status sectCnt (p + i + 1)

section Sectors

variable {s : Pio} {n sector i : Nat} {p : Int}

/-- The sectors of a loop, latest first, with the next one behind them. -/
theorem sectors_reverse (sector n : Nat) (l : List Nat) :
    ((List.range n).map (sector + 1 + ·)).reverse ++ sector :: l =
      ((List.range (n + 1)).map (sector + ·)).reverse ++ l := by
  have hrange : (List.range (n + 1)).map (sector + ·) =
      sector :: (List.range n).map (sector + 1 + ·) := by
    rw [List.range_succ_eq_map, List.map_cons, List.map_map]
    refine congrArg (sector :: ·) (List.map_congr_left fun k _ => ?_)
    show sector + (k + 1) = sector + 1 + k
    omega
  rw [hrange, List.reverse_cons, List.append_assoc]
  rfl

/-- The first sector is read without a look at the status. -/
theorem waits_readLoop : Waits (readLoop n sector p s).drive.ops → Waits s.drive.ops := by
  induction n generalizing s sector p with
  | zero => exact id
  | succ n ih => exact fun h => (ih h).2

theorem not_waits_readLoop (h : ¬Observed s.drive.ops) (hn : 0 < n) :
    ¬Waits (readLoop n sector p s).drive.ops := by
  intro hwaits
  obtain ⟨n, rfl⟩ := Nat.exists_eq_add_of_le' hn
  have hfirst : Waits (portRead s sector p).drive.ops := waits_readLoop hwaits
  exact h hfirst.1

theorem waits_writeLoop : Waits (writeLoop n sector p s).2.drive.ops → Waits s.drive.ops := by
  induction n generalizing s sector p with
  | zero => exact id
  | succ n ih =>
    rw [writeLoop]
    rcases waitStatus_cases statDrq statDrq s.drive with ⟨i, -, hready, hdrive⟩ | ⟨-, k, hnone⟩
    · simp only [if_neg hready, hdrive]
      exact fun h => waits_pollOps.mp (ih h).2
    · simp only [hnone, if_true]
      exact waits_afterPolls.mp

/-- Before a sector only the last poll has seen DRQ. -/
theorem observed_wait {status : Nat → UInt8} {ops : List PortOp} {q : Nat}
    (hi : FirstPoll status statDrq statDrq q i) (hops : ¬Observed ops) :
    Observed (pollOps status q (i + 1) ++ ops) ↔ status (q + i) &&& statBusy = 0 := by
  rw [observed_pollOps, or_iff_left hops]
  constructor
  · rintro ⟨j, hj, hbusy, hdrq⟩
    obtain rfl : j = i := by
      by_contra hne
      exact hi.before j (by omega) hdrq
    exact hbusy
  · exact fun hbusy => ⟨i, Nat.lt_succ_self i, hbusy, hi.shows⟩

/-- The sectors of a write wait properly exactly when the status values that end the waits say
that the drive is not busy. -/
theorem writeLoop_waits_iff (hops : ¬Observed s.drive.ops) (hwaits : Waits s.drive.ops) :
    Waits (writeLoop n sector p s).2.drive.ops ↔ DrqClean s.drive.status n s.drive.polls := by
  induction n generalizing s sector p with
  | zero => exact iff_of_true hwaits trivial
  | succ n ih =>
    rw [writeLoop, DrqClean]
    rcases waitStatus_cases statDrq statDrq s.drive with ⟨i, hi, hready, hdrive⟩ | ⟨hno, k, hnone⟩
    · simp only [if_neg hready, hdrive]
      generalize hs' : portWrite { s with drive := afterPolls s.drive (i + 1) } sector p = s'
      have hstatus : s'.drive.status = s.drive.status := by rw [← hs']; rfl
      have hpolls : s'.drive.polls = s.drive.polls + i + 1 := by rw [← hs']; rfl
      have hops' : s'.drive.ops = .dataOut sector ::
          (pollOps s.drive.status s.drive.polls (i + 1) ++ s.drive.ops) := by rw [← hs']; rfl
      have hnext : ¬Observed s'.drive.ops := by rw [hops']; exact id
      have hsector : Waits s'.drive.ops ↔ s.drive.status (s.drive.polls + i) &&& statBusy = 0 := by
        rw [hops', Waits, observed_wait hi hops, waits_pollOps, and_iff_left hwaits]
      constructor
      · intro h k hk
        obtain rfl := hi.unique hk
        have hnow := waits_writeLoop h
        refine ⟨hsector.mp hnow, ?_⟩
        rw [← hstatus, ← hpolls]
        exact (ih hnext hnow).mp h
      · intro h
        obtain ⟨hbusy, hrest⟩ := h i hi
        rw [← hstatus, ← hpolls] at hrest
        exact (ih hnext (hsector.mpr hbusy)).mpr hrest
    · simp only [hnone, if_true]
      exact iff_of_true (waits_afterPolls.mpr hwaits) fun i hi => absurd hi (hno i)

/-- A write stops at a sector the drive does not ask for, or transfers all of them. -/
theorem writeLoop_outcome : (∃ e, (writeLoop n sector p s).1 = .error e) ∨
    (writeLoop n sector p s).1 = .ok () ∧ transferred (writeLoop n sector p s).2.drive.ops =
      ((List.range n).map (sector + ·)).reverse ++ transferred s.drive.ops := by
  induction n generalizing s sector p with
  | zero => exact .inr ⟨rfl, rfl⟩
  | succ n ih =>
    rw [writeLoop]
    rcases waitStatus_cases statDrq statDrq s.drive with ⟨i, -, hready, hdrive⟩ | ⟨-, k, hnone⟩
    · simp only [if_neg hready, hdrive]
      refine ih.imp_right fun h => ⟨h.1, h.2.trans ?_⟩
      rw [← sectors_reverse]
      have hbefore : transferred (portWrite { s with drive := afterPolls s.drive (i + 1) }
          sector p).drive.ops = sector :: transferred s.drive.ops :=
        congrArg (sector :: ·) transferred_pollOps
      rw [hbefore]
    · simp only [hnone, if_true]
      exact .inl ⟨_, rfl⟩

end Sectors

/-! ## The calls that wait -/

/-- A request that gets to its first sector is a write whose waits end with BSY clear. -/
def KeepsToRule (cmd : BioCmd) (d : Drive) : Prop :=
  ∀ i j, FirstPoll d.status statBusy 0 d.polls i →
    FirstPoll d.status statBusy 0 (d.polls + i + 1) j → Passes cmd d →
    cmd.rw ≠ bioRead ∧
      (cmd.rw = bioWrite → DrqClean d.status cmd.count (d.polls + i + 1 + j + 1))

section Calls

variable {cmd : BioCmd} {s : Pio} {d d' : Drive} {i j : Nat}

/-- A call that stops or gives up before its first sector. -/
theorem pioOk_of_ops {r : Kernel Int} {s' : Pio} (hcall : hdRdwt cmd s.fresh = (r, s'))
    (hr : (∃ e, r = .error e) ∨ r = .ok (-1)) (hops : Waits s'.drive.ops) : PioOk cmd s := by
  refine ⟨?_, by rwa [hcall]⟩
  rw [hcall]
  exact hr.imp_right .inl

/-- The drive right after the command: no status has been read yet. -/
structure Commanded (d d' : Drive) (j : Nat) : Prop where
  unobserved : ¬Observed d'.ops
  waits : Waits d.ops → Waits d'.ops
  transferred : transferred d'.ops = transferred d.ops
  status : d'.status = d.status
  polls : d'.polls = d.polls + j + 1

theorem hdCmdOut_commanded (code : Nat) (hpass : Passes cmd d)
    (hj : FirstPoll d.status statBusy 0 d.polls j) :
    ∃ d', hdCmdOut d 0 code cmd.count cmd.sector 0 = .ok d' ∧ Commanded d d' j := by
  obtain ⟨regs, hregs, hcall⟩ : ∃ regs, commandRegs regs ∧
      hdCmdOut d 0 code cmd.count cmd.sector 0 = .ok ((afterPolls d (j + 1)).outb regs) :=
    hdCmdOut_passes hpass hj
  refine ⟨_, hcall, observed_outb hregs, fun h => ?_, ?_, rfl, rfl⟩
  · rw [waits_outb]
    exact waits_afterPolls.mpr h
  · rw [transferred_outb]
    exact transferred_pollOps

/-- Once hd_cmd_out has returned, a read breaks the rule at its first sector, and a write keeps it
as long as its waits do. -/
theorem pioOk_commanded (hargs : cmd.sector < 2 ^ 31 ∧ cmd.count > 0)
    (hready : (waitStatus statBusy 0 normWaitTime s.fresh.drive).1 ≠ 0)
    (hdrive : (waitStatus statBusy 0 normWaitTime s.fresh.drive).2 = d)
    (hops : Waits d.ops) (hnone : transferred d.ops = []) (hpass : Passes cmd d)
    (hj : FirstPoll d.status statBusy 0 d.polls j) :
    PioOk cmd s ↔ cmd.rw ≠ bioRead ∧
      (cmd.rw = bioWrite → DrqClean d.status cmd.count (d.polls + j + 1)) := by
  by_cases hread : cmd.rw = bioRead
  · refine iff_of_false (fun h => ?_) fun h => h.1 hread
    obtain ⟨d', hcmd, hd'⟩ := hdCmdOut_commanded cmdRead hpass hj
    have hwaits := h.waits
    rw [hdRdwt, assert, if_pos hargs] at hwaits
    simp only [if_neg hready, hdrive, if_pos hread, hcmd] at hwaits
    exact not_waits_readLoop (s := { s.fresh with drive := d' }) hd'.unobserved hargs.2 hwaits
  by_cases hwrite : cmd.rw = bioWrite
  · obtain ⟨d', hcmd, hd'⟩ := hdCmdOut_commanded cmdWrite hpass hj
    have hcall : hdRdwt cmd s.fresh =
        ((writeLoop cmd.count cmd.sector cmd.buffer { s.fresh with drive := d' }).1.map fun _ => 0,
          (writeLoop cmd.count cmd.sector cmd.buffer { s.fresh with drive := d' }).2) := by
      rw [hdRdwt, assert, if_pos hargs]
      simp only [if_neg hready, hdrive, if_neg hread, if_pos hwrite, hcmd]
    have hiff : Waits (writeLoop cmd.count cmd.sector cmd.buffer
        { s.fresh with drive := d' }).2.drive.ops ↔ DrqClean d'.status cmd.count d'.polls :=
      writeLoop_waits_iff hd'.unobserved (hd'.waits hops)
    simp only [hd'.status, hd'.polls] at hiff
    constructor
    · intro h
      have hwaits := h.waits
      rw [hcall] at hwaits
      exact ⟨hread, fun _ => hiff.mp hwaits⟩
    · rintro ⟨-, hclean⟩
      refine ⟨?_, ?_⟩
      · rw [hcall]
        have hend : (∃ e, (writeLoop cmd.count cmd.sector cmd.buffer
            { s.fresh with drive := d' }).1 = .error e) ∨ _ := writeLoop_outcome
        rcases hend with ⟨e, he⟩ | ⟨hok, hall⟩
        · exact .inl ⟨e, by rw [he]; rfl⟩
        · refine .inr (.inr ⟨by rw [hok]; rfl, ?_⟩)
          rw [hall, hd'.transferred, hnone, List.append_nil]
      · rw [hcall]
        exact hiff.mpr (hclean hwrite)
  · refine iff_of_true ?_ ⟨hread, fun h => absurd h hwrite⟩
    have hcall : hdRdwt cmd s.fresh =
        (.error (.panic "HD: unknown cmd"), { s.fresh with drive := d }) := by
      rw [hdRdwt, assert, if_pos hargs]
      simp only [if_neg hready, hdrive, if_neg hread, if_neg hwrite]
    exact pioOk_of_ops hcall (.inl ⟨_, rfl⟩) hops

/-- A request that hd_cmd_out does not carry out. -/
theorem pioOk_stopped (hargs : cmd.sector < 2 ^ 31 ∧ cmd.count > 0)
    (hready : (waitStatus statBusy 0 normWaitTime s.fresh.drive).1 ≠ 0)
    (hdrive : (waitStatus statBusy 0 normWaitTime s.fresh.drive).2 = d) (hops : Waits d.ops)
    (hdata : ¬(Passes cmd d ∧ ∃ j, FirstPoll d.status statBusy 0 d.polls j)) : PioOk cmd s := by
  obtain ⟨e, he⟩ := hdCmdOut_stops cmdRead hdata
  obtain ⟨e', he'⟩ := hdCmdOut_stops cmdWrite hdata
  have hcall : ∃ e, hdRdwt cmd s.fresh = (.error e, { s.fresh with drive := d }) := by
    rw [hdRdwt, assert, if_pos hargs]
    simp only [if_neg hready, hdrive, he, he']
    split_ifs
    · exact ⟨_, rfl⟩
    · exact ⟨_, rfl⟩
    · exact ⟨_, rfl⟩
  obtain ⟨e, hcall⟩ := hcall
  exact pioOk_of_ops hcall (.inl ⟨e, rfl⟩) hops

/-- hd_rdwt waits for the drive before each sector exactly when it gets to no sector, or writes
and every status value that ends a wait for DRQ has BSY clear. -/
theorem pio_waits_iff (cmd : BioCmd) (s : Pio) : PioOk cmd s ↔ KeepsToRule cmd s.drive := by
  have hfresh : Waits s.fresh.drive.ops := trivial
  by_cases hargs : cmd.sector < 2 ^ 31 ∧ cmd.count > 0
  swap
  · have hcall : hdRdwt cmd s.fresh =
        (.error (.assertFailed "start_sect >= 0 && sect_cnt > 0"), s.fresh) := by
      rw [hdRdwt, assert, if_neg hargs]
    refine iff_of_true (pioOk_of_ops hcall (.inl ⟨_, rfl⟩) hfresh) fun i j _ _ hpass => ?_
    have hlow := hpass.checked.low
    have hpos := hpass.checked.count_pos
    exact absurd ⟨hlow.trans (by decide), Nat.pos_of_ne_zero hpos⟩ hargs
  rcases waitStatus_cases statBusy 0 s.fresh.drive with ⟨i, hi, hready, hdrive⟩ | ⟨hno, k, hnone⟩
  swap
  · have hcall : hdRdwt cmd s.fresh =
        (.ok (-1), { s.fresh with drive := afterPolls s.fresh.drive k }) := by
      rw [hdRdwt, assert, if_pos hargs]
      simp only [hnone, if_true]
    exact iff_of_true (pioOk_of_ops hcall (.inr rfl) (waits_afterPolls.mpr hfresh))
      fun i _ hi => absurd hi (hno i)
  generalize hd : afterPolls s.fresh.drive (i + 1) = d at hdrive
  have hops : Waits d.ops := by
    rw [← hd]
    exact waits_afterPolls.mpr hfresh
  have hpasses : Passes cmd s.drive ↔ Passes cmd d := by
    rw [← hd]
    exact ⟨fun h => h.congr rfl rfl rfl, fun h => h.congr rfl rfl rfl⟩
  have hpoll : ∀ j, FirstPoll s.drive.status statBusy 0 (s.drive.polls + i + 1) j ↔
      FirstPoll d.status statBusy 0 d.polls j := by
    rw [← hd]
    exact fun _ => Iff.rfl
  by_cases hdata : Passes cmd d ∧ ∃ j, FirstPoll d.status statBusy 0 d.polls j
  · obtain ⟨hpass, j, hj⟩ := hdata
    have hnone : transferred d.ops = [] := by
      rw [← hd]
      exact transferred_pollOps
    rw [pioOk_commanded hargs hready hdrive hops hnone hpass hj, ← hd]
    constructor
    · intro h i' j' hi' hj' _
      obtain rfl := hi.unique hi'
      obtain rfl := hj.unique ((hpoll j').mp hj')
      exact h
    · exact fun h => h i j hi ((hpoll j).mpr hj) (hpasses.mpr hpass)
  · refine iff_of_true (pioOk_stopped hargs hready hdrive hops hdata) fun i' j hi' hj hpass => ?_
    obtain rfl := hi.unique hi'
    exact absurd ⟨hpasses.mp hpass, j, (hpoll j).mp hj⟩ hdata

end Calls

/-- A drive with 28-bit addresses that is never busy and never asks for data. -/
def idleDrive : Pio where
  drive := {
    addrMode := 1, sectPerTrk := 63, headNr := 16, sectors := fun _ _ => 0, status := fun _ => 0,
    shown := fun _ => 0, stray := fun _ _ => 0, polls := 0, transfers := 0, ops := [],
    done := [] }
  mem _ := 0

/-- One sector is read from it all the same. -/
theorem read_without_wait : ¬PioOk ⟨bioRead, 0, 1, 0⟩ idleDrive := by
  intro h
  have hops : (hdRdwt ⟨bioRead, 0, 1, 0⟩ idleDrive.fresh).2.drive.ops =
      [.dataIn 0, .out command 32, .out device 224, .out addr2 0, .out addr1 0, .out addr0 0,
        .out sectCnt 1, .out features 0, .out devCtrl 0, .status 0, .status 0] := by
    decide
  have hwaits := h.waits
  rw [hops] at hwaits
  exact hwaits.1.1 rfl

/-! ## The driver with its buffer -/

/-- The 1024 bytes of the buffer, at its address. -/
def HoldsBuffer (mem : Int → UInt8) (ram : Ram) (buffer : Int) : Prop :=
  ∀ i : Fin 1024, mem (buffer + (i : Nat)) = ram buffer i

section Driver

variable {cmd : BioCmd} {ram ram' : Ram} {d d' : Drive} {mem : Int → UInt8} {n k : Nat}

theorem portRead_mem (s : Pio) (sector : Nat) (p a : Int) : (portRead s sector p).mem a =
    if p ≤ a ∧ a < p + 512 then s.drive.dataIn sector (Fin.ofNat 512 (a - p).toNat)
    else s.mem a := rfl

theorem HoldsBuffer.read (h : HoldsBuffer mem ram cmd.buffer) (k : Nat) :
    HoldsBuffer (portRead ⟨d, mem⟩ (cmd.sector + k) (cmd.buffer + 512 * k)).mem
      (Function.update ram cmd.buffer
        (setHalf (ram cmd.buffer) k (d.dataIn (cmd.sector + k)))) cmd.buffer := by
  intro i
  rw [Function.update_self, setHalf, portRead_mem]
  by_cases hk : (i : Nat) / 512 = k
  · have hbyte : (cmd.buffer + (i : Nat) - (cmd.buffer + 512 * k)).toNat = i % 512 := by omega
    rw [if_pos hk, if_pos (by omega), hbyte]
    congr 1
    exact Fin.ext (Nat.mod_mod _ _)
  · rw [if_neg hk, if_neg (by omega)]
    exact h i

theorem HoldsBuffer.half (h : HoldsBuffer mem ram cmd.buffer) (hk : k < 2) :
    (fun i : Fin 512 => mem (cmd.buffer + 512 * k + (i : Nat))) = half (ram cmd.buffer) k := by
  funext i
  have hi := i.isLt
  have hbyte := h (Fin.ofNat 1024 (512 * k + i))
  have hval : ((Fin.ofNat 1024 (512 * k + i) : Fin 1024) : Nat) = 512 * k + i :=
    Nat.mod_eq_of_lt (by omega)
  rw [hval] at hbyte
  rw [Hd.half, ← hbyte]
  congr 1
  push_cast
  omega

theorem readLoop_driver (hmem : HoldsBuffer mem ram cmd.buffer)
    (h : readSectors cmd n k ram d = .ok (ram', d')) : ∃ mem',
      readLoop n (cmd.sector + k) (cmd.buffer + 512 * k) ⟨d, mem⟩ = ⟨d', mem'⟩ ∧
        HoldsBuffer mem' ram' cmd.buffer := by
  induction n generalizing k ram d mem with
  | zero =>
    simp only [readSectors, pure_eq_ok, Except.ok.injEq, Prod.mk.injEq] at h
    obtain ⟨rfl, rfl⟩ := h
    exact ⟨mem, rfl, hmem⟩
  | succ n ih =>
    simp only [readSectors, bind_eq_ok] at h
    obtain ⟨_, -, h⟩ := h
    obtain ⟨mem', hloop, hmem'⟩ := ih (hmem.read k) h
    refine ⟨mem', ?_, hmem'⟩
    rw [← hloop, readLoop]
    congr 1
    push_cast
    omega

theorem writeLoop_driver (hmem : HoldsBuffer mem ram cmd.buffer)
    (h : writeSectors cmd n k ram d = .ok d') :
    writeLoop n (cmd.sector + k) (cmd.buffer + 512 * k) ⟨d, mem⟩ = (.ok (), ⟨d', mem⟩) := by
  induction n generalizing k d with
  | zero =>
    simp only [writeSectors, pure_eq_ok, Except.ok.injEq] at h
    rw [h]
    rfl
  | succ n ih =>
    simp only [writeSectors, ite_error_eq_ok, bind_eq_ok, access_eq_ok] at h
    obtain ⟨hready, _, hk, h⟩ := h
    rw [writeLoop]
    simp only [if_neg hready, portWrite, hmem.half hk]
    have hnext := ih h
    rw [show cmd.buffer + 512 * (k + 1 : Nat) = cmd.buffer + 512 * k + 512 by push_cast; ring]
      at hnext
    exact hnext

/-- A call of the driver that returns has done to the drive and the buffer what this call does. -/
theorem hdRdwt_driver (hmem : HoldsBuffer mem ram cmd.buffer) {v : Int}
    (h : Hd.hdRdwt cmd (ram, d) = .ok (v, ram', d')) : ∃ s', hdRdwt cmd ⟨d, mem⟩ = (.ok v, s') ∧
      { s'.drive with done := d'.done } = d' ∧ HoldsBuffer s'.mem ram' cmd.buffer := by
  simp only [Hd.hdRdwt, bind_eq_ok, assert_eq_ok] at h
  obtain ⟨_, hargs, h⟩ := h
  rw [hdRdwt, assert, if_pos hargs]
  dsimp only
  split_ifs at h ⊢ with hready hread hwrite
  · simp only [pure_eq_ok, Except.ok.injEq, Prod.mk.injEq] at h
    obtain ⟨rfl, rfl, rfl⟩ := h
    exact ⟨_, rfl, rfl, hmem⟩
  · simp only [bind_eq_ok, pure_eq_ok, Except.ok.injEq, Prod.mk.injEq] at h
    obtain ⟨d₁, hcmd, ⟨ram₁, d₂⟩, hloop, rfl, rfl, rfl⟩ := h
    obtain ⟨mem', hread, hmem'⟩ := readLoop_driver hmem hloop
    rw [hcmd]
    refine ⟨⟨d₂, mem'⟩, ?_, ?_, hmem'⟩
    · rw [← hread]
      simp
    · split_ifs
      · rfl
      · rfl
  · simp only [bind_eq_ok, pure_eq_ok, Except.ok.injEq, Prod.mk.injEq] at h
    obtain ⟨d₁, hcmd, d₂, hloop, rfl, rfl, rfl⟩ := h
    have hwrite := writeLoop_driver hmem hloop
    rw [hcmd]
    refine ⟨⟨d₂, mem⟩, ?_, rfl, hmem⟩
    simp only [Nat.cast_zero, mul_zero, add_zero] at hwrite
    simp only [hwrite]
    rfl

end Driver

end RxdOs.Blk.PioWait
