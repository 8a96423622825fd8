/- RxdOs/Boot/ReadBootDev
   source: boot/boot.asm (_func_read_boot_dev)
   digest: The boot loader's reads are contiguous exactly when no call to the BIOS fails: a retry
   asks only for the sectors that the failed call had transferred. -/

import RxdOs.Boot.Cpu

set_option autoImplicit false
set_option relaxedAutoImplicit false

namespace RxdOs.Boot.ReadBootDev

open RxdOs.Boot.Cpu

/-! ## int 13h -/

/-- bSecPerTrk and bHeads, as they are for a floppy. -/
structure Geometry where
  secPerTrk : Byte
  heads : Byte
  secPerTrk_pos : 0 < secPerTrk.toNat
  secPerTrk_le : secPerTrk.toNat ≤ 63
  heads_pos : 0 < heads.toNat

/-- The bytes of the disk, 512 to a sector. -/
abbrev Disk := Nat → UInt8

/-- How a call ends: without carry, or with carry after some of the sectors, never all. -/
inductive Outcome
  | success
  | error (transferred : Nat)
  deriving DecidableEq

/-- The sector that the registers name: bits 0 to 5 of cl count from one, its other bits are the
high ones of the cylinder. -/
def Geometry.lba (g : Geometry) (ch cl dh : Byte) : Nat :=
  ((ch.toNat + 256 * (cl.toNat / 64)) * g.heads.toNat + dh.toNat) * g.secPerTrk.toNat +
    (cl.toNat % 64 - 1)

/-- Consecutive sectors arrive in memory. -/
def transfer (disk : Disk) (lba n : Nat) (dest : BitVec 20) (mem : Memory) : Memory := fun a =>
  if (a - dest).toNat < 512 * n then disk (512 * lba + (a - dest).toNat) else mem a

/-! ## boot.asm -/

/-- .do_read: al, memory and the outcomes of later calls, after the first call without carry.
What int 13h does for al = 0 is not defined; there is no result then. -/
def doRead (disk : Disk) (lba : Nat) (dest : BitVec 20) :
    List Outcome → Byte → Memory → Option (Byte × Memory × List Outcome)
  | [], al, mem => if al = 0 then none else some (al, transfer disk lba al.toNat dest mem, [])
  | .success :: answers, al, mem =>
    if al = 0 then none else some (al, transfer disk lba al.toNat dest mem, answers)
  | .error transferred :: answers, al, mem =>
    if al = 0 then none
    else
      -- `jc .do_read` jumps behind the load of al: the number transferred is what is asked for next
      let n := min transferred (al.toNat - 1)
      doRead disk lba dest answers (BitVec.ofNat 8 n) (transfer disk lba n dest mem)

/-- The registers at .next_read, memory, and how the BIOS calls from here on end. -/
structure State where
  ax : Word
  cl : Byte
  es : Word
  mem : Memory
  answers : List Outcome

/-- `cmp al, 64`, `jbe .do_read`, `mov al, 64` -/
def chunk (secReadCnt : Byte) : Byte := if secReadCnt ≤ 64 then secReadCnt else 64

/-- From .next_read to `cmp cl, 0`. -/
def nextRead (g : Geometry) (disk : Disk) (bx : Word) (s : State) : Option State := do
  let secReadCnt := s.cl
  let (al, ah) ← div s.ax g.secPerTrk
  let cl := ah + 1
  let (al, ah) ← div (al.setWidth 16) g.heads
  let ch := al
  let dh := ah
  let (al, mem, answers) ←
    doRead disk (g.lba ch cl dh) (physical s.es bx) s.answers (chunk secReadCnt) s.mem
  some { ax := al.setWidth 16 + s.ax, cl := secReadCnt - al, es := s.es + 0x800, mem, answers }

/-- `jne .next_read` -/
def readLoop (g : Geometry) (disk : Disk) (bx : Word) : Nat → State → Option State
  | 0, _ => none
  | fuel + 1, s => do
    let s ← nextRead g disk bx s
    if s.cl = 0 then some s else readLoop g disk bx fuel s

/-- _func_read_boot_dev; every round takes a sector, so there are no more rounds than sectors. -/
def readBootDev (g : Geometry) (disk : Disk) (bx : Word) (s : State) : Option State :=
  (readLoop g disk bx s.cl.toNat s).map fun s' => { s' with es := s.es }

/-! ## What is asked of it -/

/-- Sector `start + i` is at byte `512 * i` of the destination. -/
def Loaded (disk : Disk) (dest : BitVec 20) (start count : Nat) (mem : Memory) : Prop :=
  ∀ i < count, ∀ b < 512, mem (dest + BitVec.ofNat 20 (512 * i + b)) = disk (512 * (start + i) + b)

variable {g : Geometry} {disk : Disk} {bx : Word} {s s' : State} {mem mem' : Memory}
  {dest : BitVec 20} {lba n : Nat} {al al' : Byte} {answers answers' : List Outcome}

/-! ## The address of a chunk -/

theorem setWidth_toNat (b : Byte) : (b.setWidth 16).toNat = b.toNat := by
  rw [BitVec.toNat_setWidth]
  have hlt := b.isLt
  omega

/-- How far into the destination an address is. -/
theorem offset_toNat (dest : BitVec 20) {k : Nat} (hk : k < 2 ^ 20) :
    (dest + BitVec.ofNat 20 k - dest).toNat = k := by
  rw [BitVec.add_comm, BitVec.add_sub_cancel, BitVec.toNat_ofNat, Nat.mod_eq_of_lt hk]

/-- How far it is from one address to another, both counted from the destination. -/
theorem offset_between (dest : BitVec 20) (x y : Nat) :
    (dest + BitVec.ofNat 20 x - (dest + BitVec.ofNat 20 y)).toNat =
      (x + (2 ^ 20 - y % 2 ^ 20)) % 2 ^ 20 := by
  have hcancel : dest + BitVec.ofNat 20 x - (dest + BitVec.ofNat 20 y) =
      BitVec.ofNat 20 x - BitVec.ofNat 20 y := by
    rw [← BitVec.sub_sub, BitVec.add_comm dest, BitVec.add_sub_cancel]
  rw [hcancel, BitVec.toNat_sub, BitVec.toNat_ofNat, BitVec.toNat_ofNat]
  omega

theorem chunk_toNat (c : Byte) : (chunk c).toNat = min c.toNat 64 := by
  rw [chunk]
  by_cases hle : c ≤ 64
  · rw [if_pos hle]
    exact (min_eq_left hle).symm
  · rw [if_neg hle]
    exact (min_eq_right (not_le.mp hle).le).symm

/-- The division undone by the BIOS. -/
theorem lba_of_div {ax : Word} {ah ch dh : Byte} (h : div ax g.secPerTrk = some (al, ah))
    (h' : div (al.setWidth 16) g.heads = some (ch, dh)) : g.lba ch (ah + 1) dh = ax.toNat := by
  obtain ⟨hal, hah⟩ := div_values h
  obtain ⟨hch, hdh⟩ := div_values h'
  rw [setWidth_toNat, hal] at hch hdh
  have hrem : ax.toNat % g.secPerTrk.toNat < g.secPerTrk.toNat := Nat.mod_lt _ g.secPerTrk_pos
  have hsec := g.secPerTrk_le
  have hcl : (ah + 1).toNat = ax.toNat % g.secPerTrk.toNat + 1 := by
    have hone : (1 : Byte).toNat = 1 := rfl
    rw [BitVec.toNat_add, hah, hone]
    omega
  have hhigh : (ax.toNat % g.secPerTrk.toNat + 1) / 64 = 0 := by omega
  have hlow : (ax.toNat % g.secPerTrk.toNat + 1) % 64 - 1 = ax.toNat % g.secPerTrk.toNat := by
    omega
  rw [Geometry.lba, hcl, hch, hdh, hhigh, hlow, Nat.mul_zero, Nat.add_zero, Nat.div_add_mod',
    Nat.div_add_mod']

/-! ## The sectors of one round -/

section Round

theorem transfer_inside {a : BitVec 20} (h : (a - dest).toNat < 512 * n) :
    transfer disk lba n dest mem a = disk (512 * lba + (a - dest).toNat) :=
  if_pos h

theorem transfer_outside {a : BitVec 20} (h : 512 * n ≤ (a - dest).toNat) :
    transfer disk lba n dest mem a = mem a :=
  if_neg (not_lt.mpr h)

theorem transfer_cases (disk : Disk) (lba n : Nat) (dest : BitVec 20) (mem : Memory)
    (a : BitVec 20) : transfer disk lba n dest mem a = mem a ∨
      (a - dest).toNat < 512 * n ∧
        transfer disk lba n dest mem a = disk (512 * lba + (a - dest).toNat) := by
  by_cases h : (a - dest).toNat < 512 * n
  · exact .inr ⟨h, transfer_inside h⟩
  · exact .inl (transfer_outside (not_lt.mp h))

/-- Two transfers, the second where the first one ends. -/
theorem transfer_append (disk : Disk) (lba : Nat) (dest : BitVec 20) (mem : Memory) {m n : Nat}
    (hfit : 512 * (m + n) ≤ 2 ^ 20) :
    transfer disk (lba + m) n (dest + BitVec.ofNat 20 (512 * m)) (transfer disk lba m dest mem) =
      transfer disk lba (m + n) dest mem := by
  funext a
  have hoff : (a - (dest + BitVec.ofNat 20 (512 * m))).toNat =
      ((a - dest).toNat + (2 ^ 20 - 512 * m % 2 ^ 20)) % 2 ^ 20 := by
    rw [← BitVec.sub_sub, BitVec.toNat_sub, BitVec.toNat_ofNat, Nat.add_comm]
  have hlt := (a - dest).isLt
  unfold transfer
  rw [hoff]
  split_ifs <;> first | rfl | omega | (congr 1; omega)

/-- A call that succeeds at once. -/
theorem doRead_success (hal : al ≠ 0) (h : answers.head? = none ∨ answers.head? = some .success) :
    doRead disk lba dest answers al mem =
      some (al, transfer disk lba al.toNat dest mem, answers.tail) := by
  cases answers with
  | nil => exact if_neg hal
  | cons o answers =>
    cases o with
    | success => exact if_neg hal
    | error transferred => simp at h

/-- What a failed call asks for next: fewer sectors than it was asked for. -/
theorem retry_toNat (al : Byte) (transferred : Nat) :
    (BitVec.ofNat 8 (min transferred (al.toNat - 1))).toNat = min transferred (al.toNat - 1) := by
  have hlt := al.isLt
  rw [BitVec.toNat_ofNat]
  omega

theorem doRead_error {transferred : Nat} (h : doRead disk lba dest (.error transferred :: answers)
    al mem = some (al', mem', answers')) :
    al ≠ 0 ∧ doRead disk lba dest answers (BitVec.ofNat 8 (min transferred (al.toNat - 1)))
      (transfer disk lba (min transferred (al.toNat - 1)) dest mem) =
        some (al', mem', answers') := by
  unfold doRead at h
  split at h
  · cases h
  · rename_i hal
    exact ⟨hal, h⟩

/-- What a round leaves in memory: the sectors asked for, or what was there. -/
theorem doRead_spec (h : doRead disk lba dest answers al mem = some (al', mem', answers')) :
    0 < al'.toNat ∧ al'.toNat ≤ al.toNat ∧ ∀ a, mem' a = mem a ∨
      (a - dest).toNat < 512 * al.toNat ∧ mem' a = disk (512 * lba + (a - dest).toNat) := by
  fun_induction doRead disk lba dest answers al mem with
  | case1 => cases h
  | case2 al mem hal =>
    cases h
    exact ⟨BitVec.toNat_pos_of_ne_zero hal, le_rfl, transfer_cases disk lba _ dest mem⟩
  | case3 => cases h
  | case4 answers al mem hal =>
    cases h
    exact ⟨BitVec.toNat_pos_of_ne_zero hal, le_rfl, transfer_cases disk lba _ dest mem⟩
  | case5 => cases h
  | case6 transferred answers al mem hal n ih =>
    have hn : (BitVec.ofNat 8 n).toNat = n := retry_toNat al transferred
    have hle : n ≤ al.toNat := (Nat.min_le_right ..).trans (Nat.sub_le ..)
    obtain ⟨hpos, hfew, hmem⟩ := ih h
    rw [hn] at hfew hmem
    refine ⟨hpos, hfew.trans hle, fun a => ?_⟩
    obtain hsame | ⟨hlt, hread⟩ := hmem a
    · rw [hsame]
      exact (transfer_cases disk lba n dest mem a).imp_right fun ⟨hlt, hread⟩ =>
        ⟨by omega, hread⟩
    · exact .inr ⟨by omega, hread⟩

/-- The state after a round. -/
def State.next (s : State) (r : Byte × Memory × List Outcome) : State where
  ax := r.1.setWidth 16 + s.ax
  cl := s.cl - r.1
  es := s.es + 0x800
  mem := r.2.1
  answers := r.2.2

theorem next_cl {r : Byte × Memory × List Outcome} (hr : r.1.toNat ≤ s.cl.toNat) :
    (s.next r).cl.toNat = s.cl.toNat - r.1.toNat :=
  BitVec.toNat_sub_of_le (BitVec.le_def.mpr hr)

theorem next_ax {r : Byte × Memory × List Outcome} (hr : r.1.toNat ≤ s.cl.toNat)
    (hwrap : s.ax.toNat + s.cl.toNat < 2 ^ 16) : (s.next r).ax.toNat = s.ax.toNat + r.1.toNat := by
  have hsum : (s.next r).ax = r.1.setWidth 16 + s.ax := rfl
  rw [hsum, BitVec.toNat_add, setWidth_toNat]
  omega

theorem next_physical (bx : Word) (s : State) (r : Byte × Memory × List Outcome) :
    physical (s.next r).es bx = physical s.es bx + BitVec.ofNat 20 (512 * 64) :=
  physical_add s.es bx

/-- The registers after a round of 64 sectors, whatever memory is then. -/
theorem next_chunk {ax : Word} {cl : Byte} (bx es : Word) (hfull : (chunk cl).toNat = 64)
    (hwrap : ax.toNat + cl.toNat < 2 ^ 16) : ∃ ax' es' cl',
      (∀ mem answers mem' answers', State.next ⟨ax, cl, es, mem, answers⟩
        (chunk cl, mem', answers') = ⟨ax', cl', es', mem', answers'⟩) ∧
      ax'.toNat = ax.toNat + 64 ∧ cl'.toNat = cl.toNat - 64 ∧
      physical es' bx = physical es bx + BitVec.ofNat 20 (512 * 64) := by
  have hle : (chunk cl).toNat ≤ cl.toNat := (chunk_toNat cl).trans_le (Nat.min_le_left ..)
  let s : State := ⟨ax, cl, es, fun _ => 0, []⟩
  have hax : (s.next (chunk cl, s.mem, [])).ax.toNat = ax.toNat + (chunk cl).toNat :=
    next_ax hle hwrap
  have hcl : (s.next (chunk cl, s.mem, [])).cl.toNat = cl.toNat - (chunk cl).toNat := next_cl hle
  rw [hfull] at hax hcl
  exact ⟨_, _, _, fun _ _ _ _ => rfl, hax, hcl, physical_add es bx⟩

/-- A round whose division does not overflow reads from the sector in ax. -/
theorem nextRead_eq (hdiv : s.ax.toNat / g.secPerTrk.toNat < 256) :
    nextRead g disk bx s =
      (doRead disk s.ax.toNat (physical s.es bx) s.answers (chunk s.cl) s.mem).map s.next := by
  have hspt : g.secPerTrk ≠ 0 := fun h => absurd g.secPerTrk_pos (by rw [h]; decide)
  have hheads : g.heads ≠ 0 := fun h => absurd g.heads_pos (by rw [h]; decide)
  have htrack := div_eq_some hspt hdiv
  obtain ⟨hal, -⟩ := div_values htrack
  have hfit : ((BitVec.ofNat 8 (s.ax.toNat / g.secPerTrk.toNat)).setWidth 16).toNat /
      g.heads.toNat < 256 := by
    rw [setWidth_toNat, hal]
    exact lt_of_le_of_lt (Nat.div_le_self ..) hdiv
  have hcyl := div_eq_some hheads hfit
  have hlba := lba_of_div htrack hcyl
  unfold nextRead
  rw [htrack]
  simp only [Option.bind_eq_bind, Option.bind_some]
  rw [hcyl]
  simp only [Option.bind_some, hlba]
  cases doRead disk s.ax.toNat (physical s.es bx) s.answers (chunk s.cl) s.mem <;> rfl

theorem nextRead_cases (h : nextRead g disk bx s = some s') :
    ∃ r, doRead disk s.ax.toNat (physical s.es bx) s.answers (chunk s.cl) s.mem = some r ∧
      s' = s.next r := by
  by_cases hdiv : s.ax.toNat / g.secPerTrk.toNat < 256
  · rw [nextRead_eq hdiv, Option.map_eq_some_iff] at h
    obtain ⟨r, hr, hs'⟩ := h
    exact ⟨r, hr, hs'.symm⟩
  · have herror : div s.ax g.secPerTrk = none := if_pos (.inr (not_lt.mp hdiv))
    unfold nextRead at h
    rw [herror] at h
    cases h

end Round

/-! ## Without errors -/

section Contiguous

/-- A round that meets no error takes a whole chunk. -/
theorem nextRead_success (hcl : 0 < s.cl.toNat) (hdiv : s.ax.toNat / g.secPerTrk.toNat < 256)
    (h : s.answers.head? = none ∨ s.answers.head? = some .success) :
    nextRead g disk bx s = some (s.next (chunk s.cl,
      transfer disk s.ax.toNat (chunk s.cl).toNat (physical s.es bx) s.mem, s.answers.tail)) := by
  have hchunk : chunk s.cl ≠ 0 := by
    have hmin := chunk_toNat s.cl
    intro hzero
    rw [hzero] at hmin
    have hz : (0 : Byte).toNat = 0 := rfl
    omega
  rw [nextRead_eq hdiv, doRead_success hchunk h, Option.map_some]

theorem answers_next {k : Nat} (h : ∀ o ∈ answers.take (k + 1), o = .success) :
    (answers.head? = none ∨ answers.head? = some .success) ∧
      ∀ o ∈ answers.tail.take k, o = .success := by
  cases answers with
  | nil => exact ⟨.inl rfl, fun o ho => absurd ho (by simp)⟩
  | cons o answers =>
    rw [List.take_succ_cons, List.forall_mem_cons] at h
    exact ⟨.inr (congrArg some h.1), h.2⟩

/-- Memory after a run that meets no error. -/
theorem readLoop_success {fuel : Nat} (hcl : 0 < s.cl.toNat) (hfuel : s.cl.toNat ≤ fuel)
    (hwrap : s.ax.toNat + s.cl.toNat < 2 ^ 16)
    (hdiv : ∀ j, 64 * j < s.cl.toNat → (s.ax.toNat + 64 * j) / g.secPerTrk.toNat < 256)
    (h : ∀ o ∈ s.answers.take ((s.cl.toNat + 63) / 64), o = .success) :
    ∃ s', readLoop g disk bx fuel s = some s' ∧
      s'.mem = transfer disk s.ax.toNat s.cl.toNat (physical s.es bx) s.mem := by
  induction fuel generalizing s with
  | zero => omega
  | succ fuel ih =>
    have hdiv0 := hdiv 0 hcl
    rw [show (s.cl.toNat + 63) / 64 = (s.cl.toNat - 1) / 64 + 1 by omega] at h
    obtain ⟨hhead, htail⟩ := answers_next h
    have hround : nextRead g disk bx s = _ := nextRead_success hcl hdiv0 hhead
    generalize hr : (chunk s.cl, transfer disk s.ax.toNat (chunk s.cl).toNat (physical s.es bx)
      s.mem, s.answers.tail) = r at hround
    have hmin : r.1.toNat = min s.cl.toNat 64 := by rw [← hr, chunk_toNat]
    have hmem₁ : (s.next r).mem = transfer disk s.ax.toNat r.1.toNat (physical s.es bx) s.mem := by
      rw [← hr]
      rfl
    have hcl₁ : (s.next r).cl.toNat = s.cl.toNat - r.1.toNat := next_cl (by omega)
    have hax₁ : (s.next r).ax.toNat = s.ax.toNat + r.1.toNat := next_ax (by omega) hwrap
    rw [readLoop, hround, Option.bind_eq_bind, Option.bind_some]
    by_cases hlast : (s.next r).cl = 0
    · have hall : r.1.toNat = s.cl.toNat := by
        rw [hlast] at hcl₁
        have hzero : (0 : Byte).toNat = 0 := rfl
        omega
      exact ⟨s.next r, if_pos hlast, by rw [hmem₁, hall]⟩
    · have hpos : 0 < (s.next r).cl.toNat := BitVec.toNat_pos_of_ne_zero hlast
      have hfull : r.1.toNat = 64 := by omega
      have hdiv₁ : ∀ j, 64 * j < (s.next r).cl.toNat →
          ((s.next r).ax.toNat + 64 * j) / g.secPerTrk.toNat < 256 := by
        intro j hj
        have hnext := hdiv (j + 1) (by omega)
        rw [hax₁, hfull]
        rwa [Nat.mul_succ, Nat.add_comm (64 * j), ← Nat.add_assoc] at hnext
      have hanswers₁ : ∀ o ∈ (s.next r).answers.take (((s.next r).cl.toNat + 63) / 64),
          o = .success := by
        rw [show ((s.next r).cl.toNat + 63) / 64 = (s.cl.toNat - 1) / 64 by omega, ← hr]
        exact htail
      obtain ⟨s', hrun, hmem⟩ := ih hpos (by omega) (by omega) hdiv₁ hanswers₁
      refine ⟨s', (if_neg hlast).trans hrun, ?_⟩
      have hfit := s.cl.isLt
      have hsum : 64 + (s.cl.toNat - 64) = s.cl.toNat := by omega
      rw [hmem, hmem₁, hax₁, hcl₁, next_physical, hfull,
        transfer_append _ _ _ _ (by omega), hsum]

/-- The destination after a run that meets no error. -/
theorem loaded_of_success {count : Byte} {start es : Word} (hcount : 0 < count.toNat)
    (hwrap : start.toNat + count.toNat < 2 ^ 16)
    (hdiv : ∀ j, 64 * j < count.toNat → (start.toNat + 64 * j) / g.secPerTrk.toNat < 256)
    (h : ∀ o ∈ answers.take ((count.toNat + 63) / 64), o = .success) :
    ∃ s', readBootDev g disk bx ⟨start, count, es, mem, answers⟩ = some s' ∧
      Loaded disk (physical es bx) start.toNat count.toNat s'.mem := by
  obtain ⟨s', hloop, hmem⟩ :
      ∃ s', readLoop g disk bx count.toNat ⟨start, count, es, mem, answers⟩ = some s' ∧
        s'.mem = transfer disk start.toNat count.toNat (physical es bx) mem :=
    readLoop_success hcount le_rfl hwrap hdiv h
  refine ⟨{ s' with es := es }, ?_, fun i hi b hb => ?_⟩
  · rw [readBootDev, hloop, Option.map_some]
  · have hlt := count.isLt
    have hoff := offset_toNat (physical es bx) (k := 512 * i + b) (by omega)
    have hin : 512 * i + b < 512 * count.toNat := by omega
    have hsrc : 512 * start.toNat + (512 * i + b) = 512 * (start.toNat + i) + b := by omega
    show s'.mem _ = _
    rw [hmem, transfer_inside (by rwa [hoff]), hoff, hsrc]

end Contiguous

/-! ## After an error -/

section Missing

/-- A disk with nothing but ones in one sector. -/
def single (sector : Nat) : Disk := fun x => if x / 512 = sector then 1 else 0

/-- Once a round has taken fewer sectors than its place in memory has room for, the sector that
the failed call stopped at never reaches its own place: the source is less than 64 sectors ahead,
the destination is a multiple of 64 sectors ahead. -/
theorem readLoop_missing {fuel base k t : Nat} {a : BitVec 20} (hk : k < 64)
    (ha : a = dest + BitVec.ofNat 20 (512 * k)) (hbase : base < s.ax.toNat)
    (hwrap : s.ax.toNat + s.cl.toNat < 2 ^ 16)
    (hdest : physical s.es bx = dest + BitVec.ofNat 20 (512 * 64 * t)) (hmem : s.mem a = 0)
    (h : readLoop g (single (base + k)) bx fuel s = some s') : s'.mem a = 0 := by
  induction fuel generalizing s t with
  | zero => cases h
  | succ fuel ih =>
    rw [readLoop, Option.bind_eq_bind, Option.bind_eq_some_iff] at h
    obtain ⟨s₁, hround, hrest⟩ := h
    obtain ⟨r, hread, rfl⟩ := nextRead_cases hround
    obtain ⟨hpos, hfew, hwritten⟩ := doRead_spec hread
    rw [chunk_toNat] at hfew hwritten
    have hmem₁ : (s.next r).mem a = 0 := by
      obtain hsame | ⟨hlt, hsector⟩ := hwritten a
      · exact hsame.trans hmem
      · refine hsector.trans (if_neg ?_)
        rw [ha, hdest, offset_between] at hlt ⊢
        omega
    split at hrest
    · cases hrest
      exact hmem₁
    · refine ih (t := t + 1) ?_ ?_ ?_ hmem₁ hrest
      · rw [next_ax (by omega) hwrap]
        omega
      · rw [next_ax (by omega) hwrap, next_cl (by omega)]
        omega
      · rw [next_physical, hdest, Nat.mul_succ (512 * 64) t,
          BitVec.ofNat_add (512 * 64 * t) (512 * 64), BitVec.add_assoc]

/-- The retry asks for no more than had been transferred, so the next sector stays out of this
round. -/
theorem nextRead_error {transferred : Nat} {a : BitVec 20}
    (hanswers : s.answers = .error transferred :: answers)
    (ha : a = physical s.es bx +
      BitVec.ofNat 20 (512 * min transferred ((chunk s.cl).toNat - 1)))
    (h : nextRead g disk bx s = some s') :
    s'.mem a = s.mem a ∧ ∃ r, s' = s.next r ∧ 0 < r.1.toNat ∧
      r.1.toNat ≤ min transferred ((chunk s.cl).toNat - 1) := by
  obtain ⟨r, hread, rfl⟩ := nextRead_cases h
  obtain ⟨al', mem', answers'⟩ := r
  rw [hanswers] at hread
  obtain ⟨-, hretry⟩ := doRead_error hread
  obtain ⟨hpos, hfew, hwritten⟩ := doRead_spec hretry
  rw [retry_toNat] at hfew hwritten
  have hlt := (chunk s.cl).isLt
  have hoff := offset_toNat (physical s.es bx)
    (show 512 * min transferred ((chunk s.cl).toNat - 1) < 2 ^ 20 by omega)
  rw [← ha] at hoff
  refine ⟨?_, ⟨_, rfl, hpos, hfew⟩⟩
  obtain hsame | ⟨hin, -⟩ := hwritten a
  · exact hsame.trans (transfer_outside hoff.ge)
  · omega

/-- A run that starts with a failed call leaves a hole where the sector belongs that the call
stopped at: the next round asks for that sector, but puts it at es + 0x800. -/
theorem readLoop_error_head {fuel transferred k : Nat}
    (hk : k = min transferred ((chunk s.cl).toNat - 1))
    (hwrap : s.ax.toNat + s.cl.toNat < 2 ^ 16)
    (hanswers : s.answers = .error transferred :: answers)
    (hzero : s.mem (physical s.es bx + BitVec.ofNat 20 (512 * k)) = 0)
    (h : readLoop g (single (s.ax.toNat + k)) bx (fuel + 1) s = some s') :
    s'.mem (physical s.es bx + BitVec.ofNat 20 (512 * k)) = 0 := by
  have hmin := chunk_toNat s.cl
  rw [readLoop, Option.bind_eq_bind, Option.bind_eq_some_iff] at h
  obtain ⟨s₁, hround, hrest⟩ := h
  obtain ⟨hsame, r, rfl, hpos, hfew⟩ := nextRead_error hanswers (by rw [← hk]) hround
  rw [← hk] at hfew
  rw [hzero] at hsame
  split at hrest
  · cases hrest
    exact hsame
  · have hle : r.1.toNat ≤ s.cl.toNat := by omega
    have hax := next_ax hle hwrap
    have hcl := next_cl hle
    exact readLoop_missing (t := 1) (by omega) rfl (by omega) (by omega) (next_physical bx s r)
      hsame hrest

/-- What the rounds after a whole chunk leave missing behind it was not read with the chunk. -/
theorem readLoop_error_later {fuel : Nat} {ax ax' es es' : Word} {cl cl' : Byte} {a : BitVec 20}
    (hfull : (chunk cl).toNat = 64)
    (hnext : ∀ mem answers mem' answers', State.next ⟨ax, cl, es, mem, answers⟩
      (chunk cl, mem', answers') = ⟨ax', cl', es', mem', answers'⟩)
    (hgoes : cl' ≠ 0) (hbehind : 512 * 64 ≤ (a - physical es bx).toNat)
    (hmissing : ∀ mem s', mem a = 0 →
      readLoop g disk bx fuel ⟨ax', cl', es', mem, answers⟩ = some s' → s'.mem a = 0)
    (hzero : mem a = 0)
    (h : readLoop g disk bx (fuel + 1) ⟨ax, cl, es, mem, .success :: answers⟩ = some s') :
    s'.mem a = 0 := by
  rw [readLoop, Option.bind_eq_bind, Option.bind_eq_some_iff] at h
  obtain ⟨s₁, hround, hrest⟩ := h
  obtain ⟨r, hread, rfl⟩ := nextRead_cases hround
  have hchunk : chunk cl ≠ 0 := by
    intro hz
    rw [hz] at hfull
    exact absurd hfull (by decide)
  rw [doRead_success hchunk (.inr rfl)] at hread
  cases hread
  rw [List.tail_cons, hnext, if_neg hgoes] at hrest
  refine hmissing _ s' ?_ hrest
  refine (transfer_outside ?_).trans hzero
  rw [hfull]
  exact hbehind

/-- Where some call of an error-free run would fail, a sector is missing from its place
afterwards. -/
theorem readLoop_error (g : Geometry) (fuel : Nat) (bx ax es : Word) {cl : Byte}
    (hwrap : ax.toNat + cl.toNat < 2 ^ 16)
    (h : ∃ o ∈ answers.take ((cl.toNat + 63) / 64), o ≠ .success) :
    ∃ k < cl.toNat, ∀ mem s', mem (physical es bx + BitVec.ofNat 20 (512 * k)) = 0 →
      readLoop g (single (ax.toNat + k)) bx fuel ⟨ax, cl, es, mem, answers⟩ = some s' →
      s'.mem (physical es bx + BitVec.ofNat 20 (512 * k)) = 0 := by
  have hcl : 0 < cl.toNat := by
    by_contra hzero
    rw [Nat.eq_zero_of_not_pos hzero] at h
    obtain ⟨o, ho, -⟩ := h
    exact List.not_mem_nil ho
  induction fuel generalizing ax es cl answers with
  | zero => exact ⟨0, hcl, fun mem s' _ hrun => by cases hrun⟩
  | succ fuel ih =>
    have hmin := chunk_toNat cl
    obtain ⟨o, ho, hfailed⟩ := h
    rw [show (cl.toNat + 63) / 64 = (cl.toNat - 1) / 64 + 1 by omega] at ho
    cases answers with
    | nil => exact absurd ho List.not_mem_nil
    | cons first rest =>
      rw [List.take_succ_cons, List.mem_cons] at ho
      cases first with
      | error transferred =>
        obtain ⟨k, hk⟩ : ∃ k, k = min transferred ((chunk cl).toNat - 1) := ⟨_, rfl⟩
        refine ⟨k, by omega, fun mem s' hzero hrun => ?_⟩
        exact readLoop_error_head (s := ⟨ax, cl, es, mem, .error transferred :: rest⟩) hk hwrap rfl
          hzero hrun
      | success =>
        have ho : o ∈ rest.take ((cl.toNat - 1) / 64) := ho.resolve_left hfailed
        have hlong : 64 < cl.toNat := by
          by_contra hshort
          rw [show (cl.toNat - 1) / 64 = 0 by omega] at ho
          exact List.not_mem_nil ho
        have hfull : (chunk cl).toNat = 64 := by omega
        obtain ⟨ax', es', cl', hnext, hax, hcl', hes⟩ := next_chunk bx es hfull hwrap
        rw [show (cl.toNat - 1) / 64 = (cl'.toNat + 63) / 64 by omega] at ho
        obtain ⟨k, hk, hmissing⟩ := ih ax' es' (by omega) ⟨o, ho, hfailed⟩ (by omega)
        have haddr : physical es' bx + BitVec.ofNat 20 (512 * k) =
            physical es bx + BitVec.ofNat 20 (512 * (64 + k)) := by
          rw [hes, BitVec.add_assoc, Nat.mul_add, BitVec.ofNat_add (512 * 64) (512 * k)]
        have hsector : ax'.toNat + k = ax.toNat + (64 + k) := by omega
        rw [haddr, hsector] at hmissing
        have hgoes : cl' ≠ 0 := by
          intro hz
          rw [hz] at hcl'
          have hzero : (0 : Byte).toNat = 0 := rfl
          omega
        have hbehind : 512 * 64 ≤
            (physical es bx + BitVec.ofNat 20 (512 * (64 + k)) - physical es bx).toNat := by
          have hlt := cl.isLt
          rw [offset_toNat _ (by omega)]
          omega
        exact ⟨64 + k, by omega, fun mem s' hzero hrun =>
          readLoop_error_later hfull hnext hgoes hbehind hmissing hzero hrun⟩

end Missing

/-! ## Every pattern of failures -/

/-- More rounds than sectors are never made. -/
theorem readLoop_fuel {fuel fuel' : Nat} (hcl : 0 < s.cl.toNat) (hfuel : s.cl.toNat ≤ fuel)
    (hfuel' : s.cl.toNat ≤ fuel') :
    readLoop g disk bx fuel s = readLoop g disk bx fuel' s := by
  induction fuel generalizing s fuel' with
  | zero => omega
  | succ fuel ih =>
    obtain ⟨rounds, rfl⟩ : ∃ rounds, fuel' = rounds + 1 := ⟨fuel' - 1, by omega⟩
    rw [readLoop, readLoop]
    cases hround : nextRead g disk bx s with
    | none => rfl
    | some s₁ =>
      obtain ⟨r, hread, rfl⟩ := nextRead_cases hround
      obtain ⟨hpos, hfew, -⟩ := doRead_spec hread
      rw [chunk_toNat] at hfew
      have hcl₁ := next_cl (s := s) (r := r) (by omega)
      simp only [Option.bind_eq_bind, Option.bind_some]
      by_cases hlast : (s.next r).cl = 0
      · rw [if_pos hlast, if_pos hlast]
      · rw [if_neg hlast, if_neg hlast]
        exact ih (BitVec.toNat_pos_of_ne_zero hlast) (by omega) (by omega)

/-- Contiguous for whatever is on the disk exactly when none of the calls fails. -/
theorem readBootDev_iff (g : Geometry) (start es bx : Word) (count : Byte)
    (answers : List Outcome) (hcount : 0 < count.toNat)
    (hdiv : ∀ j, 64 * j < count.toNat → (start.toNat + 64 * j) / g.secPerTrk.toNat < 256) :
    (∀ disk mem, ∃ s', readBootDev g disk bx ⟨start, count, es, mem, answers⟩ = some s' ∧
      Loaded disk (physical es bx) start.toNat count.toNat s'.mem) ↔
    ∀ o ∈ answers.take ((count.toNat + 63) / 64), o = .success := by
  have hwrap : start.toNat + count.toNat < 2 ^ 16 := by
    have hfirst := (Nat.div_lt_iff_lt_mul g.secPerTrk_pos).mp (hdiv 0 hcount)
    have hsec := g.secPerTrk_le
    have hlt := count.isLt
    have hmul : 256 * g.secPerTrk.toNat ≤ 256 * 63 := Nat.mul_le_mul_left _ hsec
    omega
  constructor
  · intro hloaded
    by_contra hfailed
    have herror : ∃ o ∈ answers.take ((count.toNat + 63) / 64), o ≠ .success := by
      simpa only [not_forall, exists_prop] using hfailed
    obtain ⟨k, hk, hmissing⟩ := readLoop_error g count.toNat bx start es hwrap herror
    obtain ⟨s', hrun, hmem⟩ := hloaded (single (start.toNat + k)) (fun _ => 0)
    rw [readBootDev, Option.map_eq_some_iff] at hrun
    obtain ⟨s₁, hloop, rfl⟩ := hrun
    have hzero : s₁.mem (physical es bx + BitVec.ofNat 20 (512 * k)) = 0 :=
      hmissing (fun _ => 0) s₁ rfl hloop
    have hone : s₁.mem (physical es bx + BitVec.ofNat 20 (512 * k)) =
        single (start.toNat + k) (512 * (start.toNat + k)) := hmem k hk 0 (by decide)
    rw [hzero, single, if_pos (Nat.mul_div_cancel_left _ (by decide))] at hone
    exact absurd hone (by decide)
  · intro hok disk mem
    exact loaded_of_success hcount hwrap hdiv hok

/-- A 1.44 MB floppy. -/
def floppy : Geometry where
  secPerTrk := 18
  heads := 2
  secPerTrk_pos := by decide
  secPerTrk_le := by decide
  heads_pos := by decide

/-- Three sectors after the boot sector, one error in a later read. -/
theorem readBootDev_setup : 0 < (3 : Byte).toNat ∧ ∀ disk mem, ∃ s',
    readBootDev floppy disk 0 ⟨1, 3, 0x9020, mem, [.success, .error 2]⟩ = some s' ∧
      Loaded disk (physical 0x9020 0) 1 3 s'.mem := by
  have hdiv : ∀ j, 64 * j < (3 : Byte).toNat →
      ((1 : Word).toNat + 64 * j) / floppy.secPerTrk.toNat < 256 := by
    intro j hj
    have hthree : (3 : Byte).toNat = 3 := rfl
    have hzero : j = 0 := by omega
    rw [hzero]
    decide
  have hcount : 0 < (3 : Byte).toNat := by decide
  exact ⟨hcount, (readBootDev_iff floppy 1 0x9020 0 3 [.success, .error 2] hcount hdiv).mpr
    (by decide)⟩

/-- Two sectors, the first call fails after one of them: the second one is fetched in another
round, to a place 64 sectors further on than the first. -/
theorem readBootDev_retry : ∃ s',
    readBootDev floppy (single 2) 0 ⟨1, 2, 0x9020, fun _ => 0, [.error 1]⟩ = some s' ∧
      ¬Loaded (single 2) (physical 0x9020 0) 1 2 s'.mem := by
  have hrun : (readBootDev floppy (single 2) 0 ⟨1, 2, 0x9020, fun _ => 0, [.error 1]⟩).map
      (fun s' => s'.mem (physical 0x9020 0 + 512)) = some 0 := by decide
  obtain ⟨s', hs', hmem⟩ := Option.map_eq_some_iff.mp hrun
  refine ⟨s', hs', fun hloaded => ?_⟩
  have hone : s'.mem (physical 0x9020 0 + 512) = 1 := hloaded 1 (by decide) 0 (by decide)
  rw [hmem] at hone
  exact absurd hone (by decide)

end RxdOs.Boot.ReadBootDev
