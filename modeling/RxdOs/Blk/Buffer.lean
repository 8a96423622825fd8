/- RxdOs/Blk/Buffer
   source: kernel/blk_drv/buffer.c, kernel/blk_drv/blk.h
   digest: The buffer cache: bread, brelease, bwrite and buffer_init over the request table. -/

import RxdOs.Blk.Request

set_option autoImplicit false
set_option relaxedAutoImplicit false

namespace RxdOs.Blk.Buffer

open RxdOs.Base.Assert RxdOs.Blk.Request

def blockSize : Nat := 1024
def sectorsPerBlk : Nat := 2

/-- `sizeof(struct buffer_head)` -/
def sizeofBufferHead : Int := 56

/-- The BLOCK_SIZE bytes of one block. -/
abbrev Block := Fin 1024 → UInt8

/-- Where a byte of a buffer lies in its sector. -/
theorem inHalf_lt (i : Fin 1024) : (i : Nat) % 512 < 512 := Nat.mod_lt _ (by decide)

/-- The data blocks of the pool, by the address in `b_data`. -/
abbrev Ram := Int → Block

structure BufferHead where
  bDev : Int
  bBlocknr : Int
  bUptodate : Int
  bData : Int
  bDirty : Int
  bCount : Int
  deriving DecidableEq

/-- The static data of buffer.c.  Buffer heads are numbered by their place in the
pool; both lists hold such numbers.  `E` is the rest of the device. -/
structure Cache (E : Type) where
  nrBuffers : Nat
  heads : Nat → BufferHead
  cachedList : List Nat
  freeList : List Nat
  blk : BlkState (Ram × E)

variable {E : Type}

/-- The content of a buffer. -/
def Cache.data (s : Cache E) (bh : Nat) : Block := s.blk.device.1 (s.heads bh).bData

/-- Stores to the fields of one buffer head. -/
def Cache.setHead (s : Cache E) (bh : Nat) (head : BufferHead) : Cache E :=
  { s with heads := Function.update s.heads bh head }

/-- Stores to the links of both lists. -/
def Cache.setLists (s : Cache E) (cachedList freeList : List Nat) : Cache E :=
  { s with cachedList := cachedList, freeList := freeList }

section SetHead

variable (s : Cache E) (bh : Nat) (head : BufferHead)

@[simp] theorem setHead_blk : (s.setHead bh head).blk = s.blk := rfl

@[simp] theorem setHead_heads_self : (s.setHead bh head).heads bh = head :=
  Function.update_self ..

theorem setHead_heads (b : Nat) :
    (s.setHead bh head).heads b = if b = bh then head else s.heads b :=
  Function.update_apply ..

theorem setHead_heads_of_ne {b : Nat} (h : b ≠ bh) : (s.setHead bh head).heads b = s.heads b :=
  Function.update_of_ne h ..

/-- No call changes where a buffer's block lies. -/
theorem setHead_data (hdata : head.bData = (s.heads bh).bData) (b : Nat) :
    (s.setHead bh head).data b = s.data b := by
  simp only [Cache.data, setHead_heads, setHead_blk]
  split_ifs with hb
  · rw [hdata, hb]
  · rfl

end SetHead

/-- `b_blocknr * SECTORS_PER_BLK`, an int product passed as u32; its overflow has no meaning in C. -/
def sectorOf (blkNr : Int) : Kernel Nat := do
  access (-2 ^ 31 ≤ blkNr * sectorsPerBlk ∧ blkNr * sectorsPerBlk < 2 ^ 31)
    "b_blocknr * SECTORS_PER_BLK"
  pure ((blkNr * sectorsPerBlk) % 2 ^ 32).toNat

/-- The buffer represents block `blkNr` of `dev`. -/
def Hit (h : BufferHead) (dev blkNr : Int) : Prop :=
  h.bUptodate ≠ 0 ∧ h.bDev = dev ∧ h.bBlocknr = blkNr

instance (h : BufferHead) (dev blkNr : Int) : Decidable (Hit h dev blkNr) :=
  inferInstanceAs (Decidable (_ ∧ _))

/-- `hlist_for_each_entry_safe(cur, hpos, hn, &cached_list, b_hash)`: every buffer nobody
holds moves to the head of free_list.  `cur` is left at the last entry visited. -/
def recycle (heads : Nat → BufferHead) :
    List Nat → Option Nat → List Nat → List Nat → Option Nat × List Nat × List Nat
  | [], cur, cachedList, freeList => (cur, cachedList, freeList)
  | b :: rest, _, cachedList, freeList =>
    if (heads b).bCount = 0 then
      recycle heads rest (some b) (cachedList.erase b) (b :: freeList)
    else
      recycle heads rest (some b) cachedList freeList

/-- "get first entry in free_list", with the two lists as they are afterwards. -/
def getFree (s : Cache E) : Kernel (Option Nat × List Nat × List Nat) :=
  match s.freeList with
  | [] =>
    let r := recycle s.heads s.cachedList none s.cachedList []
    if r.2.2 = [] then .error (.panic "Buffer: cache pool full") else pure r
  | b :: rest => pure (some b, s.cachedList, b :: rest)

/-- "read data": the buffer takes its new identity and is filled from the disk. -/
def load (hdRdwt : BioCmd → Ram × E → Kernel (Ram × E)) (s : Cache E) (cur : Nat)
    (dev blkNr : Int) : Kernel (Cache E) := do
  let head := { s.heads cur with bCount := 1, bDev := dev, bBlocknr := blkNr }
  let sector ← sectorOf head.bBlocknr
  let blk ← llRwBlock hdRdwt s.blk head.bDev bioRead sector sectorsPerBlk head.bData
  pure ({ s with blk := blk }.setHead cur { head with bUptodate := 1 })

def bread (hdRdwt : BioCmd → Ram × E → Kernel (Ram × E)) (s : Cache E) (dev blkNr : Int) :
    Kernel (Nat × Cache E) := do
  match s.cachedList.find? fun b => Hit (s.heads b) dev blkNr with
  | some cur =>
    pure (cur, s.setHead cur { s.heads cur with bCount := (s.heads cur).bCount + 1 })
  | none =>
    let (cur, cachedList, freeList) ← getFree s
    match cur with
    | none => .error (.assertFailed "cur != NULL && cur->b_count == 0")
    | some cur =>
      assert ((s.heads cur).bCount = 0) "cur != NULL && cur->b_count == 0"
      let s := s.setLists (cur :: cachedList) (freeList.erase cur)
      let s ← load hdRdwt s cur dev blkNr
      pure (cur, s)

def brelease (hdRdwt : BioCmd → Ram × E → Kernel (Ram × E)) (s : Cache E) (bh : Nat) :
    Kernel (Cache E) := do
  let head := { s.heads bh with bCount := (s.heads bh).bCount - 1 }
  assert (head.bCount ≥ 0) "bh->b_count >= 0"
  if head.bCount = 0 ∧ head.bDirty = 1 then
    let sector ← sectorOf head.bBlocknr
    let blk ← llRwBlock hdRdwt s.blk head.bDev bioWrite sector sectorsPerBlk head.bData
    pure ({ s with blk := blk }.setHead bh { head with bDirty := 0 })
  else
    pure (s.setHead bh head)

def bwrite (s : Cache E) (bh : Nat) : Cache E :=
  s.setHead bh { s.heads bh with bDirty := 1 }

/-- A holder stores into `bh->b_data`. -/
def setData (s : Cache E) (bh : Nat) (data : Block) : Cache E :=
  let ram := Function.update s.blk.device.1 (s.heads bh).bData data
  { s with blk := { s.blk with device := (ram, s.blk.device.2) } }

/-- The loop of buffer_init after `k` rounds; `buffer` and `block` are its two pointers.
Only b_uptodate, b_data and the list links are written: b_dirty and b_count keep
what the memory held. -/
def initLoop : Nat → Nat → Int → Int → (Nat → BufferHead) → List Nat →
    Nat × (Nat → BufferHead) × List Nat
  | 0, k, _, _, heads, freeList => (k, heads, freeList)
  | fuel + 1, k, buffer, block, heads, freeList =>
    if block - buffer ≥ sizeofBufferHead then
      initLoop fuel (k + 1) (buffer + sizeofBufferHead) (block - blockSize)
        (Function.update heads k { heads k with bUptodate := 0, bData := block }) (k :: freeList)
    else
      (k, heads, freeList)

/-- buffer_init over whatever `memory` held; each round brings the pointers closer, so
`end - start` rounds are enough. -/
def bufferInit (memory : Nat → BufferHead) (blk : BlkState (Ram × E)) (start stop : Int) :
    Cache E :=
  let r := initLoop (stop - start).toNat 0 start (stop - blockSize) memory []
  { nrBuffers := r.1, heads := r.2.1, cachedList := [], freeList := r.2.2, blk := blk }

/-! ## What the calls do -/

/-- Block numbers whose sector number fits an int. -/
def InRange (blkNr : Int) : Prop :=
  -2 ^ 31 ≤ blkNr * sectorsPerBlk ∧ blkNr * sectorsPerBlk < 2 ^ 31

/-- The first sector of a block, as ll_rw_block receives it. -/
def sectorNr (blkNr : Int) : Nat := ((blkNr * sectorsPerBlk) % 2 ^ 32).toNat

theorem sectorOf_ok {blkNr : Int} {sector : Nat} (h : sectorOf blkNr = .ok sector) :
    InRange blkNr ∧ sector = sectorNr blkNr := by
  simp only [sectorOf, bind_eq_ok, access_eq_ok, pure_eq_ok, Except.ok.injEq] at h
  obtain ⟨_, hr, rfl⟩ := h
  exact ⟨hr, rfl⟩

/-- The buffers buffer_init has made so far: numbered below `k`, with blocks above `block`. -/
structure Made (k : Nat) (block : Int) (heads : Nat → BufferHead) (free : List Nat) : Prop where
  nodup : free.Nodup
  below : ∀ b ∈ free, b < k
  above : ∀ b ∈ free, block < (heads b).bData
  apart : ∀ b ∈ free, ∀ b' ∈ free, (heads b).bData = (heads b').bData → b = b'

theorem Made.nil (k : Nat) (block : Int) (heads : Nat → BufferHead) : Made k block heads [] :=
  ⟨List.nodup_nil, by simp, by simp, by simp⟩

theorem Made.cons {k : Nat} {block : Int} {heads : Nat → BufferHead} {free : List Nat}
    (h : Made k block heads free) (head : BufferHead) (hdata : head.bData = block) :
    Made (k + 1) (block - blockSize) (Function.update heads k head) (k :: free) := by
  have hk : k ∉ free := fun hk => lt_irrefl _ (h.below k hk)
  have hother : ∀ b ∈ free, Function.update heads k head b = heads b := fun b hb =>
    Function.update_of_ne (ne_of_mem_of_not_mem hb hk) _ _
  refine ⟨List.nodup_cons.mpr ⟨hk, h.nodup⟩, ?_, ?_, ?_⟩
  · intro b hb
    rcases List.mem_cons.mp hb with rfl | hb
    · omega
    · exact Nat.lt_succ_of_lt (h.below b hb)
  · intro b hb
    rcases List.mem_cons.mp hb with rfl | hb
    · simp [hdata, blockSize]
    · have habove := h.above b hb
      rw [hother b hb]
      simp only [blockSize]
      omega
  · intro b hb b' hb' heq
    rcases List.mem_cons.mp hb with rfl | hb₁ <;> rcases List.mem_cons.mp hb' with rfl | hb₂
    · rfl
    · rw [Function.update_self, hother b' hb₂, hdata] at heq
      exact absurd heq (h.above b' hb₂).ne
    · rw [Function.update_self, hother b hb₁, hdata] at heq
      exact absurd heq (h.above b hb₁).ne'
    · rw [hother b hb₁, hother b' hb₂] at heq
      exact h.apart b hb₁ b' hb₂ heq

theorem initLoop_spec (fuel k : Nat) (buffer block : Int) (heads : Nat → BufferHead)
    (free : List Nat) (h : Made k block heads free) :
    (initLoop fuel k buffer block heads free).2.2.Nodup ∧
      ∀ b ∈ (initLoop fuel k buffer block heads free).2.2,
        ∀ b' ∈ (initLoop fuel k buffer block heads free).2.2,
          ((initLoop fuel k buffer block heads free).2.1 b).bData =
            ((initLoop fuel k buffer block heads free).2.1 b').bData → b = b' := by
  induction fuel generalizing k buffer block heads free with
  | zero => exact ⟨h.nodup, h.apart⟩
  | succ fuel ih =>
    rw [initLoop]
    split_ifs
    · exact ih _ _ _ _ _ (h.cons _ rfl)
    · exact ⟨h.nodup, h.apart⟩

/-- What moving buffers nobody holds to the free list keeps. -/
structure Moved (heads : Nat → BufferHead) (cached free cached' free' : List Nat) : Prop where
  perm : (cached' ++ free').Perm (cached ++ free)
  sub : ∀ b ∈ cached', b ∈ cached
  kept : ∀ b ∈ cached, (heads b).bCount ≠ 0 → b ∈ cached'

theorem Moved.refl (heads : Nat → BufferHead) (cached free : List Nat) :
    Moved heads cached free cached free :=
  ⟨.refl _, fun _ hb => hb, fun _ hb _ => hb⟩

theorem Moved.cons {heads : Nat → BufferHead} {cached free cached' free' : List Nat} {b : Nat}
    (hb : b ∈ cached) (hcount : (heads b).bCount = 0)
    (h : Moved heads (cached.erase b) (b :: free) cached' free') :
    Moved heads cached free cached' free' := by
  refine ⟨h.perm.trans ?_, fun x hx => List.mem_of_mem_erase (h.sub x hx), fun x hx hne => ?_⟩
  · exact List.perm_middle.trans ((List.perm_cons_erase hb).symm.append_right free)
  · have hxb : x ≠ b := fun heq => hne (heq ▸ hcount)
    exact h.kept x ((List.mem_erase_of_ne hxb).mpr hx) hne

theorem recycle_spec (heads : Nat → BufferHead) (l : List Nat) (cur : Option Nat)
    (cached free : List Nat) (hl : l.Nodup) (hsub : ∀ b ∈ l, b ∈ cached) :
    Moved heads cached free (recycle heads l cur cached free).2.1
        (recycle heads l cur cached free).2.2 ∧
      (∀ b ∈ free, b ∈ (recycle heads l cur cached free).2.2) ∧
      ∀ b, (recycle heads l cur cached free).1 = some b → cur ≠ some b →
        (heads b).bCount = 0 → b ∈ (recycle heads l cur cached free).2.2 := by
  induction l generalizing cur cached free with
  | nil => exact ⟨.refl _ _ _, fun _ hb => hb, fun b hb hne => absurd hb hne⟩
  | cons a l ih =>
    obtain ⟨hal, hl⟩ := List.nodup_cons.mp hl
    have ha : a ∈ cached := hsub a (by simp)
    simp only [recycle]
    split_ifs with hcount
    · have hsub' : ∀ b ∈ l, b ∈ cached.erase a := fun b hb =>
        (List.mem_erase_of_ne (ne_of_mem_of_not_mem hb hal)).mpr (hsub b (by simp [hb]))
      obtain ⟨hmoved, hfree, hcur⟩ := ih (some a) (cached.erase a) (a :: free) hl hsub'
      refine ⟨hmoved.cons ha hcount, fun b hb => hfree b (by simp [hb]), fun b hb _ hb0 => ?_⟩
      by_cases hba : a = b
      · exact hfree b (by simp [hba])
      · exact hcur b hb (by simp [hba]) hb0
    · obtain ⟨hmoved, hfree, hcur⟩ := ih (some a) cached free hl fun b hb => hsub b (by simp [hb])
      refine ⟨hmoved, hfree, fun b hb _ hb0 => hcur b hb ?_ hb0⟩
      intro heq
      exact hcount (Option.some.inj heq ▸ hb0)

theorem getFree_ok {s : Cache E} {cur : Option Nat} {cached free : List Nat}
    (hnd : s.cachedList.Nodup) (h : getFree s = .ok (cur, cached, free)) :
    Moved s.heads s.cachedList s.freeList cached free ∧
      ∀ b, cur = some b → (s.heads b).bCount = 0 → b ∈ free := by
  unfold getFree at h
  split at h
  · rename_i hfree
    rw [ite_error_eq_ok] at h
    obtain ⟨-, h⟩ := h
    have hr := recycle_spec s.heads s.cachedList none s.cachedList [] hnd fun _ hb => hb
    rw [pure_eq_ok, Except.ok.injEq] at h
    rw [h] at hr
    rw [hfree]
    exact ⟨hr.1, fun b hb hb0 => hr.2.2 b hb (by simp) hb0⟩
  · rename_i b rest hfree
    simp only [pure_eq_ok, Except.ok.injEq, Prod.mk.injEq] at h
    obtain ⟨rfl, rfl, rfl⟩ := h
    rw [hfree]
    refine ⟨.refl _ _ _, fun b' hb' _ => ?_⟩
    simp [Option.some.inj hb']

variable {hdRdwt : BioCmd → Ram × E → Kernel (Ram × E)}

/-- bread either finds the block in cached_list or loads it into a buffer nobody holds. -/
theorem bread_ok {s s' : Cache E} {dev blkNr : Int} {bh : Nat} (hnd : s.cachedList.Nodup)
    (h : bread hdRdwt s dev blkNr = .ok (bh, s')) :
    (bh ∈ s.cachedList ∧ Hit (s.heads bh) dev blkNr ∧
        s' = s.setHead bh { s.heads bh with bCount := (s.heads bh).bCount + 1 }) ∨
      (∀ b ∈ s.cachedList, ¬Hit (s.heads b) dev blkNr) ∧
        ∃ cached free, Moved s.heads s.cachedList s.freeList cached free ∧ bh ∈ free ∧
          (s.heads bh).bCount = 0 ∧
          load hdRdwt (s.setLists (bh :: cached) (free.erase bh)) bh dev blkNr = .ok s' := by
  unfold bread at h
  split at h
  · rename_i cur hfind
    simp only [pure_eq_ok, Except.ok.injEq, Prod.mk.injEq] at h
    obtain ⟨rfl, rfl⟩ := h
    exact .inl ⟨List.mem_of_find?_eq_some hfind, by simpa using List.find?_some hfind, rfl⟩
  · rename_i hfind
    right
    refine ⟨by simpa using hfind, ?_⟩
    rw [bind_eq_ok] at h
    obtain ⟨⟨cur, cached, free⟩, hget, h⟩ := h
    obtain ⟨hmoved, hcur⟩ := getFree_ok hnd hget
    cases cur with
    | none => simp at h
    | some cur =>
      simp only [bind_eq_ok, assert_eq_ok, pure_eq_ok, Except.ok.injEq, Prod.mk.injEq] at h
      obtain ⟨_, hcount, s1, hload, rfl, rfl⟩ := h
      exact ⟨cached, free, hmoved, hcur _ rfl hcount, hcount, hload⟩

theorem load_ok {s s' : Cache E} {cur : Nat} {dev blkNr : Int}
    (hidle : s.blk.bdRequest blkDevHd = none) (h : load hdRdwt s cur dev blkNr = .ok s') :
    dev = blkDevHd ∧ InRange blkNr ∧ ∃ blk,
      hdRdwt ⟨bioRead, sectorNr blkNr, sectorsPerBlk, (s.heads cur).bData⟩ s.blk.device =
        .ok blk.device ∧ blk.bdRequest blkDevHd = none ∧
      s' = { s with blk := blk }.setHead cur
        ⟨blkDevHd, blkNr, 1, (s.heads cur).bData, (s.heads cur).bDirty, 1⟩ := by
  simp only [load, bind_eq_ok, pure_eq_ok, Except.ok.injEq] at h
  obtain ⟨sector, hsector, blk, hblk, rfl⟩ := h
  obtain ⟨hr, rfl⟩ := sectorOf_ok hsector
  obtain ⟨rfl, hdrv, hidle'⟩ := llRwBlock_ok hidle hblk
  exact ⟨rfl, hr, blk, hdrv, hidle', rfl⟩

/-- brelease drops one reference; the last one of a dirty buffer writes it back. -/
theorem brelease_ok {s s' : Cache E} {bh : Nat} (hidle : s.blk.bdRequest blkDevHd = none)
    (h : brelease hdRdwt s bh = .ok s') :
    (((s.heads bh).bCount = 1 ∧ (s.heads bh).bDirty = 1) ∧ InRange (s.heads bh).bBlocknr ∧ ∃ blk,
        hdRdwt ⟨bioWrite, sectorNr (s.heads bh).bBlocknr, sectorsPerBlk, (s.heads bh).bData⟩
          s.blk.device = .ok blk.device ∧ blk.bdRequest blkDevHd = none ∧
        s' = { s with blk := blk }.setHead bh { s.heads bh with bCount := 0, bDirty := 0 }) ∨
      (¬((s.heads bh).bCount = 1 ∧ (s.heads bh).bDirty = 1) ∧
        s' = s.setHead bh { s.heads bh with bCount := (s.heads bh).bCount - 1 }) := by
  have hcount : ∀ n : Int, n - 1 = 0 ↔ n = 1 := by omega
  simp only [brelease, bind_eq_ok, assert_eq_ok, hcount] at h
  obtain ⟨_, -, h⟩ := h
  split_ifs at h with hlast
  · left
    simp only [bind_eq_ok, pure_eq_ok, Except.ok.injEq] at h
    obtain ⟨sector, hsector, blk, hblk, rfl⟩ := h
    obtain ⟨hr, rfl⟩ := sectorOf_ok hsector
    obtain ⟨-, hdrv, hidle'⟩ := llRwBlock_ok hidle hblk
    refine ⟨hlast, hr, blk, hdrv, hidle', ?_⟩
    simp [hlast.1]
  · right
    simp only [pure_eq_ok, Except.ok.injEq] at h
    exact ⟨hlast, h.symm⟩

end RxdOs.Blk.Buffer
