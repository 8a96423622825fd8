/- RxdOs/Blk/BufferCoherence
   source: kernel/blk_drv/buffer.c
   digest: Over whole runs the buffer cache shows its callers an uncached disk. -/

import RxdOs.Lib.Execution
import RxdOs.Blk.Buffer

set_option autoImplicit false
set_option relaxedAutoImplicit false

namespace RxdOs.Blk.BufferCoherence

open RxdOs.Base.Assert RxdOs.Lib.Execution RxdOs.Blk.Request RxdOs.Blk.Buffer

/-- The SECTOR_SIZE bytes of each sector. -/
abbrev Disk := Nat → Fin 512 → UInt8

/-- The 1024 bytes starting at a sector. -/
def blockAt (disk : Disk) (sector : Nat) : Block := fun i =>
  disk (sector + i / 512) ⟨i % 512, inHalf_lt i⟩

def diskBlock (disk : Disk) (blkNr : Int) : Block := blockAt disk (sectorNr blkNr)

/-- The two sectors a buffer covers, written over. -/
def storeAt (disk : Disk) (sector : Nat) (data : Block) : Disk := fun n j =>
  if h : sector ≤ n ∧ n < sector + sectorsPerBlk then
    data ⟨512 * (n - sector) + j, by simp only [sectorsPerBlk] at h; omega⟩
  else disk n j

/-- A drive that transfers exactly the two requested sectors whenever hd_rdwt returns. -/
def Exact (hdRdwt : BioCmd → Ram × Disk → Kernel (Ram × Disk)) : Prop :=
  ∀ cmd d d', hdRdwt cmd d = .ok d' → cmd.count = sectorsPerBlk →
    (cmd.rw = bioRead → d' = (Function.update d.1 cmd.buffer (blockAt d.2 cmd.sector), d.2)) ∧
      (cmd.rw = bioWrite → d' = (d.1, storeAt d.2 cmd.sector (d.1 cmd.buffer)))

/-- A buffer that bread returned, with what was asked for. -/
structure Hold where
  bh : Nat
  dev : Int
  blkNr : Int
  deriving DecidableEq

/-- The cache, the buffers its callers hold, and the disk without a cache: the content
each block was last given, at first what the disk holds. -/
structure Client where
  cache : Cache Disk
  held : List Hold
  spec : Int → Int → Block

inductive Call
  | read (dev blkNr : Int)
  | write (h : Hold) (data : Block)
  | release (h : Hold)

/-- One call; only held buffers are written and released. -/
def Client.call (hdRdwt : BioCmd → Ram × Disk → Kernel (Ram × Disk)) (c : Client) :
    Call → Kernel Client
  | .read dev blkNr => do
    let (bh, cache) ← bread hdRdwt c.cache dev blkNr
    pure ⟨cache, ⟨bh, dev, blkNr⟩ :: c.held, c.spec⟩
  | .write h data => do
    access (h ∈ c.held) "bh->b_data"
    pure ⟨bwrite (setData c.cache h.bh data) h.bh, c.held,
      Function.update c.spec h.dev (Function.update (c.spec h.dev) h.blkNr data)⟩
  | .release h => do
    access (h ∈ c.held) "brelease(bh)"
    let cache ← brelease hdRdwt c.cache h.bh
    pure ⟨cache, c.held.erase h, c.spec⟩

/-- One returning call. -/
def Step (hdRdwt : BioCmd → Ram × Disk → Kernel (Ram × Disk)) (c : Client) (a : Call)
    (c' : Client) : Prop :=
  c.call hdRdwt a = .ok c'

/-- The disk a client sees. -/
def Client.disk (c : Client) : Disk := c.cache.blk.device.2

/-- After blk_dev_init and buffer_init: any memory contents, any disk, any pool. -/
def start (memory : Nat → BufferHead) (request : Nat → BioRequest) (ram : Ram) (disk : Disk)
    (low high : Int) : Client where
  cache := bufferInit memory (blkDevInit request (ram, disk)) low high
  held := []
  spec := fun _ blkNr => diskBlock disk blkNr

/-! ## Blocks of the disk -/

/-- Different blocks have different sectors: an int product that does not overflow is
still distinct, and even, as a u32. -/
theorem sectorNr_apart {b b' : Int} (h : InRange b) (h' : InRange b') (hne : b ≠ b') :
    sectorNr b + sectorsPerBlk ≤ sectorNr b' ∨ sectorNr b' + sectorsPerBlk ≤ sectorNr b := by
  simp only [InRange, sectorNr, sectorsPerBlk, Nat.cast_ofNat] at *
  omega

theorem blockAt_storeAt_self (disk : Disk) (sector : Nat) (data : Block) :
    blockAt (storeAt disk sector data) sector = data := by
  funext i
  have hin : sector ≤ sector + i / 512 ∧ sector + i / 512 < sector + sectorsPerBlk := by
    simp only [sectorsPerBlk]
    omega
  simp only [blockAt, storeAt]
  rw [dif_pos hin]
  congr 1
  apply Fin.ext
  simp only
  omega

theorem blockAt_storeAt_of_apart (disk : Disk) {s s' : Nat} (data : Block)
    (h : s + sectorsPerBlk ≤ s' ∨ s' + sectorsPerBlk ≤ s) :
    blockAt (storeAt disk s data) s' = blockAt disk s' := by
  funext i
  have hout : ¬(s ≤ s' + i / 512 ∧ s' + i / 512 < s + sectorsPerBlk) := by
    simp only [sectorsPerBlk] at h ⊢
    omega
  simp only [blockAt, storeAt]
  rw [dif_neg hout]

theorem diskBlock_storeAt (disk : Disk) {b b' : Int} (h : InRange b) (h' : InRange b')
    (data : Block) :
    diskBlock (storeAt disk (sectorNr b) data) b' = if b' = b then data else diskBlock disk b' := by
  split_ifs with hbb
  · rw [hbb]
    exact blockAt_storeAt_self _ _ _
  · exact blockAt_storeAt_of_apart _ _ (sectorNr_apart h h' fun h => hbb h.symm)

/-! ## The invariant -/

/-- What one cached buffer says: its identity, its holders, and its content, which the disk
has as well unless the buffer is dirty. -/
structure Fits (c : Client) (b : Nat) : Prop where
  uptodate : (c.cache.heads b).bUptodate ≠ 0
  dev : (c.cache.heads b).bDev = blkDevHd
  inRange : InRange (c.cache.heads b).bBlocknr
  count : (c.cache.heads b).bCount = c.held.countP (·.bh = b)
  content : c.cache.data b = c.spec blkDevHd (c.cache.heads b).bBlocknr
  clean : (c.cache.heads b).bCount = 0 → (c.cache.heads b).bDirty ≠ 1
  synced : (c.cache.heads b).bDirty ≠ 1 →
    diskBlock c.disk (c.cache.heads b).bBlocknr = c.cache.data b

structure Inv (c : Client) : Prop where
  idle : c.cache.blk.bdRequest blkDevHd = none
  nodup : (c.cache.cachedList ++ c.cache.freeList).Nodup
  apart : ∀ b ∈ c.cache.cachedList ++ c.cache.freeList,
    ∀ b' ∈ c.cache.cachedList ++ c.cache.freeList,
      (c.cache.heads b).bData = (c.cache.heads b').bData → b = b'
  fits : ∀ b ∈ c.cache.cachedList, Fits c b
  unique : ∀ b ∈ c.cache.cachedList, ∀ b' ∈ c.cache.cachedList,
    (c.cache.heads b).bBlocknr = (c.cache.heads b').bBlocknr → b = b'
  held : ∀ h ∈ c.held, h.bh ∈ c.cache.cachedList ∧ h.dev = blkDevHd ∧
    (c.cache.heads h.bh).bBlocknr = h.blkNr
  absent : ∀ blkNr, InRange blkNr → (∀ b ∈ c.cache.cachedList, (c.cache.heads b).bBlocknr ≠ blkNr) →
    diskBlock c.disk blkNr = c.spec blkDevHd blkNr

variable {c c' : Client} {hdRdwt : BioCmd → Ram × Disk → Kernel (Ram × Disk)}

theorem Fits.frame {b : Nat} (h : Fits c b) (hhead : c'.cache.heads b = c.cache.heads b)
    (hdata : c'.cache.data b = c.cache.data b)
    (hheld : c'.held.countP (·.bh = b) = c.held.countP (·.bh = b))
    (hspec : c'.spec blkDevHd (c.cache.heads b).bBlocknr =
      c.spec blkDevHd (c.cache.heads b).bBlocknr)
    (hdisk : diskBlock c'.disk (c.cache.heads b).bBlocknr =
      diskBlock c.disk (c.cache.heads b).bBlocknr) : Fits c' b where
  uptodate := by rw [hhead]; exact h.uptodate
  dev := by rw [hhead]; exact h.dev
  inRange := by rw [hhead]; exact h.inRange
  count := by rw [hhead, hheld]; exact h.count
  content := by rw [hhead, hdata, hspec]; exact h.content
  clean := by rw [hhead]; exact h.clean
  synced := by rw [hhead, hdata, hdisk]; exact h.synced

theorem Inv.cached_nodup (h : Inv c) : c.cache.cachedList.Nodup := h.nodup.of_append_left

theorem Inv.not_free (h : Inv c) {b : Nat} (hb : b ∈ c.cache.cachedList) :
    b ∉ c.cache.freeList :=
  fun hf => List.disjoint_of_nodup_append h.nodup hb hf

theorem Inv.apart_cached (h : Inv c) {b b' : Nat} (hb : b ∈ c.cache.cachedList)
    (hb' : b' ∈ c.cache.cachedList) (hne : b ≠ b') :
    (c.cache.heads b).bData ≠ (c.cache.heads b').bData :=
  fun heq => hne (h.apart b (List.mem_append_left _ hb) b' (List.mem_append_left _ hb') heq)

theorem Inv.absent_of_not_hit (h : Inv c) {blkNr : Int} (hr : InRange blkNr)
    (hno : ∀ b ∈ c.cache.cachedList, ¬Hit (c.cache.heads b) blkDevHd blkNr) :
    (∀ b ∈ c.cache.cachedList, (c.cache.heads b).bBlocknr ≠ blkNr) ∧
      diskBlock c.disk blkNr = c.spec blkDevHd blkNr := by
  have hne : ∀ b ∈ c.cache.cachedList, (c.cache.heads b).bBlocknr ≠ blkNr := fun b hb heq =>
    hno b hb ⟨(h.fits b hb).uptodate, (h.fits b hb).dev, heq⟩
  exact ⟨hne, h.absent blkNr hr hne⟩

/-- Buffers nobody holds may go back to the free list: the disk has their content. -/
theorem Inv.moved (h : Inv c) {cached free : List Nat}
    (hm : Moved c.cache.heads c.cache.cachedList c.cache.freeList cached free) :
    Inv ⟨c.cache.setLists cached free, c.held, c.spec⟩ where
  idle := h.idle
  nodup := hm.perm.nodup_iff.mpr h.nodup
  apart b hb b' hb' := h.apart b (hm.perm.mem_iff.mp hb) b' (hm.perm.mem_iff.mp hb')
  fits b hb := (h.fits b (hm.sub b hb)).frame rfl rfl rfl rfl rfl
  unique b hb b' hb' := h.unique b (hm.sub b hb) b' (hm.sub b' hb')
  held g hg := by
    obtain ⟨hmem, hdev, hblk⟩ := h.held g hg
    refine ⟨hm.kept _ hmem ?_, hdev, hblk⟩
    rw [(h.fits _ hmem).count]
    have hpos : 0 < c.held.countP (·.bh = g.bh) := List.countP_pos_iff.mpr ⟨g, hg, by simp⟩
    omega
  absent blkNr hr hno := by
    by_cases hex : ∃ b ∈ c.cache.cachedList, (c.cache.heads b).bBlocknr = blkNr
    · obtain ⟨b, hb, rfl⟩ := hex
      have hzero : (c.cache.heads b).bCount = 0 := by
        by_contra hne
        exact hno b (hm.kept b hb hne) rfl
      have hfits := h.fits b hb
      exact (hfits.synced (hfits.clean hzero)).trans hfits.content
    · exact h.absent blkNr hr fun b hb heq => hex ⟨b, hb, heq⟩

/-- A free buffer may take the identity of a block that no cached buffer represents, once it
has been filled from the disk. -/
theorem Inv.join (h : Inv c) {bh : Nat} {blkNr : Int} {cache : Cache Disk} {dirty : Int}
    (hbh : bh ∈ c.cache.freeList) (hr : InRange blkNr)
    (hno : ∀ b ∈ c.cache.cachedList, ¬Hit (c.cache.heads b) blkDevHd blkNr)
    (hidle : cache.blk.bdRequest blkDevHd = none)
    (hcached : cache.cachedList = bh :: c.cache.cachedList)
    (hfree : cache.freeList = c.cache.freeList.erase bh)
    (hself : cache.heads bh = ⟨blkDevHd, blkNr, 1, (c.cache.heads bh).bData, dirty, 1⟩)
    (hother : ∀ b, b ≠ bh → cache.heads b = c.cache.heads b)
    (hdevice : cache.blk.device = (Function.update c.cache.blk.device.1 (c.cache.heads bh).bData
      (diskBlock c.disk blkNr), c.disk)) :
    Inv ⟨cache, ⟨bh, blkDevHd, blkNr⟩ :: c.held, c.spec⟩ ∧
      cache.data bh = c.spec blkDevHd blkNr := by
  obtain ⟨habsent, hspec⟩ := h.absent_of_not_hit hr hno
  have hnew : ∀ b ∈ c.cache.cachedList, b ≠ bh := fun b hb heq => h.not_free hb (heq ▸ hbh)
  have hheads : ∀ b ∈ c.cache.cachedList, cache.heads b = c.cache.heads b := fun b hb =>
    hother b (hnew b hb)
  have hmem : ∀ b, b ∈ cache.cachedList → b = bh ∨ b ∈ c.cache.cachedList := by
    simp [hcached]
  have hperm : (cache.cachedList ++ cache.freeList).Perm
      (c.cache.cachedList ++ c.cache.freeList) := by
    rw [hcached, hfree]
    exact List.perm_middle.symm.trans ((List.perm_cons_erase hbh).symm.append_left _)
  have hbData : ∀ b, (cache.heads b).bData = (c.cache.heads b).bData := by
    intro b
    by_cases hb : b = bh
    · rw [hb, hself]
    · rw [hother b hb]
  have hdisk : cache.blk.device.2 = c.disk := by rw [hdevice]
  have hdata_self : cache.data bh = c.spec blkDevHd blkNr := by
    simp only [Cache.data, hdevice, hbData, Function.update_self, hspec]
  have hdata : ∀ b ∈ c.cache.cachedList, cache.data b = c.cache.data b := by
    intro b hb
    have hne : (c.cache.heads b).bData ≠ (c.cache.heads bh).bData := fun heq => hnew b hb
      (h.apart b (List.mem_append_left _ hb) bh (List.mem_append_right _ hbh) heq)
    simp only [Cache.data, hdevice, hbData, Function.update_of_ne hne]
  have hnotheld : c.held.countP (·.bh = bh) = 0 := by
    rw [List.countP_eq_zero]
    intro g hg heq
    exact hnew _ (h.held g hg).1 (by simpa using heq)
  refine ⟨⟨hidle, hperm.nodup_iff.mpr h.nodup, fun b hb b' hb' heq => ?_, fun b hb => ?_,
    fun b hb b' hb' heq => ?_, fun g hg => ?_, fun n hn hno' => ?_⟩, hdata_self⟩
  · simp only [hbData] at heq
    exact h.apart b (hperm.mem_iff.mp hb) b' (hperm.mem_iff.mp hb') heq
  · rcases hmem b hb with rfl | hb
    · exact ⟨by simp [hself], by simp [hself], by simp [hself, hr], by simp [hself, hnotheld],
        by simp [hself, hdata_self], by simp [hself],
        fun _ => by simp [hself, hdata_self, Client.disk, hdisk, ← hspec]⟩
    · refine (h.fits b hb).frame (hheads b hb) (hdata b hb) ?_ rfl (by rw [Client.disk, hdisk])
      exact List.countP_cons_of_neg (by simpa using (hnew b hb).symm)
  · rcases hmem b hb with rfl | hb₁ <;> rcases hmem b' hb' with rfl | hb₂
    · rfl
    · simp only [hself, hheads b' hb₂] at heq
      exact absurd heq.symm (habsent b' hb₂)
    · simp only [hself, hheads b hb₁] at heq
      exact absurd heq (habsent b hb₁)
    · simp only [hheads b hb₁, hheads b' hb₂] at heq
      exact h.unique b hb₁ b' hb₂ heq
  · rw [hcached]
    rcases List.mem_cons.mp hg with rfl | hg
    · simp [hself]
    · obtain ⟨hmem, hdev, hnr⟩ := h.held g hg
      exact ⟨List.mem_cons_of_mem _ hmem, hdev, by rw [hheads _ hmem, hnr]⟩
  · simp only [Client.disk, hdisk]
    refine h.absent n hn fun b hb => ?_
    rw [← hheads b hb]
    exact hno' b (hcached ▸ List.mem_cons_of_mem _ hb)

/-- bread of a block that is not cached. -/
theorem Inv.load (hexact : Exact hdRdwt) (h : Inv c) {bh : Nat} {dev blkNr : Int}
    {cache : Cache Disk} (hbh : bh ∈ c.cache.freeList)
    (hno : ∀ b ∈ c.cache.cachedList, ¬Hit (c.cache.heads b) dev blkNr)
    (hload : Buffer.load hdRdwt
      (c.cache.setLists (bh :: c.cache.cachedList) (c.cache.freeList.erase bh)) bh dev blkNr =
        .ok cache) :
    Inv ⟨cache, ⟨bh, dev, blkNr⟩ :: c.held, c.spec⟩ ∧ cache.data bh = c.spec dev blkNr := by
  obtain ⟨rfl, hr, blk, hdrv, hidle, rfl⟩ := load_ok (by exact h.idle) hload
  exact h.join hbh hr hno hidle rfl rfl (setHead_heads_self ..)
    (fun b hb => setHead_heads_of_ne _ _ _ hb) ((hexact _ _ _ hdrv rfl).1 rfl)

/-- Calls that keep every buffer's place and identity keep what the lists say. -/
theorem Inv.update (h : Inv c) (hidle : c'.cache.blk.bdRequest blkDevHd = none)
    (hcached : c'.cache.cachedList = c.cache.cachedList)
    (hfree : c'.cache.freeList = c.cache.freeList)
    (hident : ∀ b, (c'.cache.heads b).bData = (c.cache.heads b).bData ∧
      (c'.cache.heads b).bBlocknr = (c.cache.heads b).bBlocknr)
    (hfits : ∀ b ∈ c.cache.cachedList, Fits c' b)
    (hheld : ∀ g ∈ c'.held, g.bh ∈ c.cache.cachedList ∧ g.dev = blkDevHd ∧
      (c.cache.heads g.bh).bBlocknr = g.blkNr)
    (habsent : ∀ n, InRange n → (∀ b ∈ c.cache.cachedList, (c.cache.heads b).bBlocknr ≠ n) →
      diskBlock c'.disk n = c'.spec blkDevHd n) : Inv c' where
  idle := hidle
  nodup := by rw [hcached, hfree]; exact h.nodup
  apart := by simpa only [hcached, hfree, fun b => (hident b).1] using h.apart
  fits := by rw [hcached]; exact hfits
  unique := by simpa only [hcached, fun b => (hident b).2] using h.unique
  held := by simpa only [hcached, fun b => (hident b).2] using hheld
  absent := by simpa only [hcached, fun b => (hident b).2] using habsent

/-- bread of a block that a cached buffer represents. -/
theorem Inv.hit (h : Inv c) {bh : Nat} {dev blkNr : Int} (hbh : bh ∈ c.cache.cachedList)
    (hhit : Hit (c.cache.heads bh) dev blkNr) :
    Inv ⟨c.cache.setHead bh { c.cache.heads bh with bCount := (c.cache.heads bh).bCount + 1 },
      ⟨bh, dev, blkNr⟩ :: c.held, c.spec⟩ ∧ c.cache.data bh = c.spec dev blkNr := by
  obtain ⟨-, rfl, rfl⟩ := hhit
  have hfits := h.fits bh hbh
  refine ⟨h.update h.idle rfl rfl (fun b => ?_) (fun b hb => ?_) (fun g hg => ?_)
    (fun n hn hno => h.absent n hn hno), ?_⟩
  · simp only [setHead_heads]
    split_ifs with hb <;> simp [hb]
  · by_cases hbb : b = bh
    · subst hbb
      have hcount := hfits.count
      exact ⟨by simpa using hfits.uptodate, by simpa using hfits.dev, by simpa using hfits.inRange,
        by simp [hcount], by simpa [setHead_data] using hfits.content,
        fun hzero => by simp only [setHead_heads_self] at hzero; omega,
        by simpa [setHead_data, Client.disk] using hfits.synced⟩
    · exact (h.fits b hb).frame (setHead_heads_of_ne _ _ _ hbb) (setHead_data _ _ _ (by rfl) _)
        (List.countP_cons_of_neg (by simpa using Ne.symm hbb)) rfl rfl
  · rcases List.mem_cons.mp hg with rfl | hg
    · exact ⟨hbh, hfits.dev, rfl⟩
    · exact h.held g hg
  · rw [hfits.content, hfits.dev]

/-- bread shows what the uncached disk holds. -/
theorem Inv.read (hexact : Exact hdRdwt) (h : Inv c) {dev blkNr : Int} {bh : Nat}
    {cache : Cache Disk} (hread : bread hdRdwt c.cache dev blkNr = .ok (bh, cache)) :
    Inv ⟨cache, ⟨bh, dev, blkNr⟩ :: c.held, c.spec⟩ ∧ cache.data bh = c.spec dev blkNr := by
  obtain ⟨hbh, hhit, rfl⟩ | ⟨hno, cached, free, hmoved, hbh, -, hload⟩ :=
    bread_ok h.cached_nodup hread
  · obtain ⟨hinv, hdata⟩ := h.hit hbh hhit
    exact ⟨hinv, (setHead_data _ _ _ (by rfl) _).trans hdata⟩
  · exact (h.moved hmoved).load hexact hbh (fun b hb => hno b (hmoved.sub b hb)) hload

/-- A holder's new content is the block's content, for the other holders too. -/
theorem Inv.write (h : Inv c) {g : Hold} (hg : g ∈ c.held) (data : Block) :
    Inv ⟨bwrite (setData c.cache g.bh data) g.bh, c.held,
      Function.update c.spec g.dev (Function.update (c.spec g.dev) g.blkNr data)⟩ := by
  obtain ⟨hbh, hdev, hnr⟩ := h.held g hg
  have hfits := h.fits _ hbh
  have hspec : ∀ n, Function.update c.spec g.dev (Function.update (c.spec g.dev) g.blkNr data)
      blkDevHd n = if n = g.blkNr then data else c.spec blkDevHd n := by
    intro n
    rw [hdev, Function.update_self, Function.update_apply]
  have hdata : ∀ b, (bwrite (setData c.cache g.bh data) g.bh).data b =
      if (c.cache.heads b).bData = (c.cache.heads g.bh).bData then data else c.cache.data b := by
    intro b
    rw [bwrite, setHead_data _ _ _ (by rfl)]
    exact Function.update_apply ..
  refine h.update h.idle rfl rfl (fun b => ?_) (fun b hb => ?_) h.held (fun n hn hno => ?_)
  · simp only [bwrite, setHead_heads]
    split_ifs with hb <;> simp [hb, setData]
  · by_cases hbb : b = g.bh
    · rw [hbb]
      have hheads : (bwrite (setData c.cache g.bh data) g.bh).heads g.bh =
          { c.cache.heads g.bh with bDirty := 1 } := setHead_heads_self ..
      exact ⟨by simpa [hheads] using hfits.uptodate, by simpa [hheads] using hfits.dev,
        by simpa [hheads] using hfits.inRange, by simpa [hheads] using hfits.count,
        by simp only [hheads, hdata, hspec, hnr, if_true],
        fun hzero => absurd hfits.count (by
          have hpos : 0 < c.held.countP (·.bh = g.bh) := List.countP_pos_iff.mpr ⟨g, hg, by simp⟩
          simp only [hheads] at hzero
          omega),
        fun hdirty => absurd (by rw [hheads]) hdirty⟩
    · refine (h.fits b hb).frame (setHead_heads_of_ne _ _ _ hbb) ?_ rfl ?_ rfl
      · rw [hdata, if_neg (h.apart_cached hb hbh hbb)]
      · exact (hspec _).trans (if_neg fun heq => hbb (h.unique b hb _ hbh (heq.trans hnr.symm)))
  · have hne : n ≠ g.blkNr := fun heq => hno _ hbh (hnr.trans heq.symm)
    exact (h.absent n hn hno).trans ((hspec n).trans (if_neg hne)).symm

theorem countP_erase_self {l : List Hold} {g : Hold} (hg : g ∈ l) :
    l.countP (·.bh = g.bh) = (l.erase g).countP (·.bh = g.bh) + 1 := by
  rw [(List.perm_cons_erase hg).countP_eq, List.countP_cons_of_pos (by simp)]

theorem countP_erase_of_ne {l : List Hold} {g : Hold} (hg : g ∈ l) {b : Nat} (hb : b ≠ g.bh) :
    (l.erase g).countP (·.bh = b) = l.countP (·.bh = b) := by
  rw [(List.perm_cons_erase hg).countP_eq, List.countP_cons_of_neg (by simpa using hb.symm)]

/-- A release that is not the last one of a dirty buffer leaves the disk alone. -/
theorem Inv.drop (h : Inv c) {g : Hold} (hg : g ∈ c.held)
    (hkeep : ¬((c.cache.heads g.bh).bCount = 1 ∧ (c.cache.heads g.bh).bDirty = 1)) :
    Inv ⟨c.cache.setHead g.bh { c.cache.heads g.bh with bCount := (c.cache.heads g.bh).bCount - 1 },
      c.held.erase g, c.spec⟩ := by
  obtain ⟨hbh, -, -⟩ := h.held g hg
  have hfits := h.fits _ hbh
  refine h.update h.idle rfl rfl (fun b => ?_) (fun b hb => ?_)
    (fun g' hg' => h.held g' (List.mem_of_mem_erase hg')) h.absent
  · simp only [setHead_heads]
    split_ifs with hb <;> simp [hb]
  · by_cases hbb : b = g.bh
    · rw [hbb]
      have hcount := hfits.count
      rw [countP_erase_self hg] at hcount
      refine ⟨by simpa using hfits.uptodate, by simpa using hfits.dev,
        by simpa using hfits.inRange, by simp [hcount], by simpa [setHead_data] using hfits.content,
        fun hzero hdirty => ?_, by simpa [setHead_data, Client.disk] using hfits.synced⟩
      simp only [setHead_heads_self] at hzero hdirty
      exact hkeep ⟨by omega, hdirty⟩
    · exact (h.fits b hb).frame (setHead_heads_of_ne _ _ _ hbb) (setHead_data _ _ _ (by rfl) _)
        (countP_erase_of_ne hg hbb) rfl rfl

/-- The last release of a dirty buffer puts its content on the disk. -/
theorem Inv.writeBack (hexact : Exact hdRdwt) (h : Inv c) {g : Hold} (hg : g ∈ c.held)
    (hlast : (c.cache.heads g.bh).bCount = 1) {blk : BlkState (Ram × Disk)}
    (hidle : blk.bdRequest blkDevHd = none)
    (hdrv : hdRdwt ⟨bioWrite, sectorNr (c.cache.heads g.bh).bBlocknr, sectorsPerBlk,
      (c.cache.heads g.bh).bData⟩ c.cache.blk.device = .ok blk.device) :
    Inv ⟨{ c.cache with blk := blk }.setHead g.bh
      { c.cache.heads g.bh with bCount := 0, bDirty := 0 }, c.held.erase g, c.spec⟩ := by
  obtain ⟨hbh, -, -⟩ := h.held g hg
  have hfits := h.fits _ hbh
  have hdevice := (hexact _ _ _ hdrv rfl).2 rfl
  have hstore : ∀ n, InRange n → diskBlock blk.device.2 n =
      if n = (c.cache.heads g.bh).bBlocknr then c.cache.data g.bh else diskBlock c.disk n := by
    intro n hn
    rw [hdevice]
    exact diskBlock_storeAt _ hfits.inRange hn _
  have hdata : ∀ b, ({ c.cache with blk := blk }.setHead g.bh
      { c.cache.heads g.bh with bCount := 0, bDirty := 0 }).data b = c.cache.data b := by
    intro b
    rw [setHead_data _ _ _ (by rfl)]
    simp only [Cache.data, hdevice]
  refine h.update hidle rfl rfl (fun b => ?_) (fun b hb => ?_)
    (fun g' hg' => h.held g' (List.mem_of_mem_erase hg')) (fun n hn hno => ?_)
  · simp only [setHead_heads]
    split_ifs with hb <;> simp [hb]
  · by_cases hbb : b = g.bh
    · rw [hbb]
      have hcount := hfits.count
      rw [countP_erase_self hg, hlast] at hcount
      refine ⟨by simpa using hfits.uptodate, by simpa using hfits.dev,
        by simpa using hfits.inRange, ?_, by simpa [hdata] using hfits.content,
        fun _ => by simp, fun _ => ?_⟩
      · simp only [setHead_heads_self]
        omega
      · simp only [setHead_heads_self, hdata]
        exact (hstore _ hfits.inRange).trans (if_pos rfl)
    · refine (h.fits b hb).frame (setHead_heads_of_ne _ _ _ hbb) (hdata b)
        (countP_erase_of_ne hg hbb) rfl ?_
      exact (hstore _ (h.fits b hb).inRange).trans
        (if_neg fun heq => hbb (h.unique b hb _ hbh heq))
  · exact ((hstore n hn).trans (if_neg fun heq => hno _ hbh heq.symm)).trans (h.absent n hn hno)

theorem Inv.release (hexact : Exact hdRdwt) (h : Inv c) {g : Hold} {cache : Cache Disk}
    (hg : g ∈ c.held) (hrelease : brelease hdRdwt c.cache g.bh = .ok cache) :
    Inv ⟨cache, c.held.erase g, c.spec⟩ := by
  obtain ⟨⟨hlast, -⟩, -, blk, hdrv, hidle, rfl⟩ | ⟨hkeep, rfl⟩ := brelease_ok h.idle hrelease
  · exact h.writeBack hexact hg hlast hidle hdrv
  · exact h.drop hg hkeep

theorem Inv.step (hexact : Exact hdRdwt) {a : Call} (h : Inv c) (st : Step hdRdwt c a c') :
    Inv c' := by
  cases a with
  | read dev blkNr =>
    simp only [Step, Client.call, bind_eq_ok, pure_eq_ok, Except.ok.injEq] at st
    obtain ⟨⟨bh, cache⟩, hread, rfl⟩ := st
    exact (h.read hexact hread).1
  | write g data =>
    simp only [Step, Client.call, bind_eq_ok, access_eq_ok, pure_eq_ok, Except.ok.injEq] at st
    obtain ⟨_, hg, rfl⟩ := st
    exact h.write hg data
  | release g =>
    simp only [Step, Client.call, bind_eq_ok, access_eq_ok, pure_eq_ok, Except.ok.injEq] at st
    obtain ⟨_, hg, cache, hrelease, rfl⟩ := st
    exact h.release hexact hg hrelease

/-! ## Runs -/

theorem Inv.start (memory : Nat → BufferHead) (request : Nat → BioRequest) (ram : Ram)
    (disk : Disk) (low high : Int) : Inv (start memory request ram disk low high) where
  idle := rfl
  nodup := (initLoop_spec _ _ _ _ _ _ (.nil _ _ _)).1
  apart := (initLoop_spec _ _ _ _ _ _ (.nil _ _ _)).2
  fits := by simp [BufferCoherence.start, bufferInit]
  unique := by simp [BufferCoherence.start, bufferInit]
  held := by simp [BufferCoherence.start]
  absent := fun _ _ _ => rfl

/-- In every reachable state the cache shows the uncached disk: each block has at most one
cached buffer, bread returns the content last written, and a cached buffer nobody holds is
on the disk. -/
theorem buffer_cache_coherent (hexact : Exact hdRdwt) (memory : Nat → BufferHead)
    (request : Nat → BioRequest) (ram : Ram) (disk : Disk) (low high : Int)
    (h : Reach (Step hdRdwt) (start memory request ram disk low high) c) :
    (c.cache.cachedList.Nodup ∧ ∀ dev blkNr, ∀ b ∈ c.cache.cachedList, ∀ b' ∈ c.cache.cachedList,
      Hit (c.cache.heads b) dev blkNr → Hit (c.cache.heads b') dev blkNr → b = b') ∧
    (∀ dev blkNr bh cache, bread hdRdwt c.cache dev blkNr = .ok (bh, cache) →
      cache.data bh = c.spec dev blkNr) ∧
    ∀ b ∈ c.cache.cachedList, (c.cache.heads b).bCount = 0 →
      (c.cache.heads b).bDev = blkDevHd ∧
        diskBlock c.disk (c.cache.heads b).bBlocknr = c.cache.data b := by
  have hinv : Inv c := h.inv (fun _ _ _ hinv st => hinv.step hexact st) (.start ..)
  refine ⟨⟨hinv.cached_nodup, fun dev blkNr b hb b' hb' hhit hhit' => ?_⟩,
    fun dev blkNr bh cache hread => (hinv.read hexact hread).2, fun b hb hcount => ?_⟩
  · exact hinv.unique b hb b' hb' (hhit.2.2.trans hhit'.2.2.symm)
  · have hfits := hinv.fits b hb
    exact ⟨hfits.dev, hfits.synced (hfits.clean hcount)⟩

/-! ## A run on a small pool -/

/-- A drive that always transfers. -/
def plainHd (cmd : BioCmd) (d : Ram × Disk) : Kernel (Ram × Disk) :=
  if cmd.rw = bioRead then .ok (Function.update d.1 cmd.buffer (blockAt d.2 cmd.sector), d.2)
  else .ok (d.1, storeAt d.2 cmd.sector (d.1 cmd.buffer))

theorem plainHd_exact : Exact plainHd := by
  intro cmd d d' h _
  unfold plainHd at h
  constructor
  · intro hrw
    rw [if_pos hrw, Except.ok.injEq] at h
    exact h.symm
  · intro hrw
    rw [if_neg (by rw [hrw]; decide), Except.ok.injEq] at h
    exact h.symm

/-- Zeroed memory and a disk of zeroes, with room for three buffers. -/
def smallStart : Client :=
  start (fun _ => ⟨0, 0, 0, 0, 0, 0⟩) (fun _ => ⟨⟨0, 0, 0, 0⟩, 0, none, none⟩)
    (fun _ _ => 0) (fun _ _ => 0) 0 3240

/-- Fill the pool and let everything go; the next miss parks two buffers on free_list, and
one of them is reused for the block the other still names. -/
def parkedCalls : List Call :=
  [.read 3 11, .read 3 12, .read 3 13, .release ⟨2, 3, 11⟩, .release ⟨1, 3, 12⟩,
    .release ⟨0, 3, 13⟩, .read 3 14, .read 3 13, .write ⟨1, 3, 13⟩ fun _ => 7,
    .release ⟨1, 3, 13⟩]

/-- After those calls buffers 1 and 2 are cached, and buffer 0 is parked with the old
content of the block buffer 1 wrote. -/
theorem parkedCalls_end : ∃ c, Reach (Step plainHd) smallStart c ∧
    c.cache.cachedList = [1, 2] ∧ (c.cache.heads 1).bCount = 0 ∧ 0 < c.cache.nrBuffers ∧
    (c.cache.heads 0).bUptodate ≠ 0 ∧ (c.cache.heads 0).bCount = 0 ∧
    diskBlock c.disk (c.cache.heads 0).bBlocknr 0 ≠ c.cache.data 0 0 := by
  have hrun : (match parkedCalls.foldlM (Client.call plainHd) smallStart with
      | .ok c => decide (c.cache.cachedList = [1, 2] ∧ (c.cache.heads 1).bCount = 0 ∧
          0 < c.cache.nrBuffers ∧ (c.cache.heads 0).bUptodate ≠ 0 ∧
          (c.cache.heads 0).bCount = 0 ∧
          diskBlock c.disk (c.cache.heads 0).bBlocknr 0 ≠ c.cache.data 0 0)
      | .error _ => false) = true := by
    decide +kernel
  split at hrun
  · rename_i c hc
    exact ⟨c, reach_of_foldlM (fun _ _ _ hcall => hcall) hc, of_decide_eq_true hrun⟩
  · exact absurd hrun (by simp)

theorem buffer_cache_coherent_small : ∃ c, Reach (Step plainHd) smallStart c ∧
    1 ∈ c.cache.cachedList ∧
    diskBlock c.disk (c.cache.heads 1).bBlocknr = c.cache.data 1 := by
  obtain ⟨c, hreach, hcached, hcount, -⟩ := parkedCalls_end
  have hmem : 1 ∈ c.cache.cachedList := by simp [hcached]
  exact ⟨c, hreach, hmem,
    ((buffer_cache_coherent plainHd_exact _ _ _ _ _ _ hreach).2.2 1 hmem hcount).2⟩

/-- A parked buffer keeps its identity and its old content while the disk moves on. -/
theorem parked_buffer_stale : Exact plainHd ∧ ¬∀ c, Reach (Step plainHd) smallStart c →
    ∀ b < c.cache.nrBuffers, (c.cache.heads b).bUptodate ≠ 0 → (c.cache.heads b).bCount = 0 →
      diskBlock c.disk (c.cache.heads b).bBlocknr = c.cache.data b := by
  refine ⟨plainHd_exact, fun hall => ?_⟩
  obtain ⟨c, hreach, -, -, hpool, huptodate, hcount, hne⟩ := parkedCalls_end
  exact hne (congrFun (hall c hreach 0 hpool huptodate hcount) 0)

end RxdOs.Blk.BufferCoherence
