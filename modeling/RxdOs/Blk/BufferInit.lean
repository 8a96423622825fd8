/- RxdOs/Blk/BufferInit
   source: kernel/blk_drv/buffer.c (buffer_init, bread, brelease)
   digest: The pool buffer_init lays out in a region, and what it takes over from the memory
   there: exactly clean memory gives a cache in order. -/

import Mathlib.Tactic
import Mathlib.Order.CompletePartialOrder
import Mathlib.Order.Interval.Set.Disjoint
import RxdOs.Base.Int32
import RxdOs.Blk.Buffer

set_option autoImplicit false
set_option relaxedAutoImplicit false

namespace RxdOs.Blk.BufferInit

open RxdOs.Base.Assert RxdOs.Base.Int32 RxdOs.Blk.Request RxdOs.Blk.Buffer

/-- The loop of buffer_init with its test on longs: the difference wraps around. -/
def initLoopLong : Nat → Nat → Int → Int → (Nat → BufferHead) → List Nat →
    Nat × (Nat → BufferHead) × List Nat
  | 0, k, _, _, heads, freeList => (k, heads, freeList)
  | fuel + 1, k, buffer, block, heads, freeList =>
    if wrap (block - buffer) ≥ sizeofBufferHead then
      initLoopLong fuel (k + 1) (buffer + sizeofBufferHead) (block - blockSize)
        (Function.update heads k { heads k with bUptodate := 0, bData := block }) (k :: freeList)
    else
      (k, heads, freeList)

variable {E : Type}

def bufferInitLong (memory : Nat → BufferHead) (blk : BlkState (Ram × E)) (start stop : Int) :
    Cache E :=
  let r := initLoopLong (stop - start).toNat 0 start (stop - blockSize) memory []
  { nrBuffers := r.1, heads := r.2.1, cachedList := [], freeList := r.2.2, blk := blk }

/-! ## What buffer_init should establish -/

/-- A region of a 32-bit address space. -/
structure Region (start stop : Int) : Prop where
  le : start ≤ stop
  size : stop - start ≤ 2 ^ 32

/-- The bytes of header `k` of the pool. -/
def headerBytes (start : Int) (k : Nat) : Set Int :=
  Set.Ico (start + sizeofBufferHead * k) (start + sizeofBufferHead * (k + 1))

def blockBytes (bData : Int) : Set Int := Set.Ico bData (bData + blockSize)

/-- The loop gets to `n` buffers: its test passes before each of them. -/
def Reached (start stop : Int) (n : Nat) : Prop := ∀ j < n,
  sizeofBufferHead ≤ wrap (stop - blockSize - blockSize * j - (start + sizeofBufferHead * j))

/-- The assertion of bread. -/
def breadAssertion : Halt := .assertFailed "cur != NULL && cur->b_count == 0"

/-- The cache that bread and brelease rely on.  The driver may stop, but not with the text of
bread's assertion. -/
structure Established (start stop : Int) (s : Cache E) : Prop where
  headersInside : ∀ k < s.nrBuffers, headerBytes start k ⊆ Set.Ico start stop
  blocksInside : ∀ k < s.nrBuffers, blockBytes (s.heads k).bData ⊆ Set.Ico start stop
  headersApart : ∀ j < s.nrBuffers, ∀ k < s.nrBuffers, j ≠ k →
    Disjoint (headerBytes start j) (headerBytes start k)
  blocksApart : ∀ j < s.nrBuffers, ∀ k < s.nrBuffers, j ≠ k →
    Disjoint (blockBytes (s.heads j).bData) (blockBytes (s.heads k).bData)
  apart : ∀ j < s.nrBuffers, ∀ k < s.nrBuffers,
    Disjoint (headerBytes start j) (blockBytes (s.heads k).bData)
  greatest : IsGreatest {n | Reached start stop n} s.nrBuffers
  length : s.freeList.length = s.nrBuffers
  once : ∀ k, s.freeList.count k = if k < s.nrBuffers then 1 else 0
  clean : ∀ k < s.nrBuffers, (s.heads k).bUptodate = 0 ∧ (s.heads k).bDirty = 0 ∧
    (s.heads k).bCount = 0
  bread : ∀ (hdRdwt : BioCmd → Ram × E → Kernel (Ram × E)) (dev blkNr : Int),
    (∀ cmd d, hdRdwt cmd d ≠ .error breadAssertion) →
      bread hdRdwt s dev blkNr ≠ .error breadAssertion
  brelease : ∀ (hdRdwt : BioCmd → Ram × E → Kernel (Ram × E)) (dev blkNr : Int) bh s',
    Buffer.bread hdRdwt s dev blkNr = .ok (bh, s') →
      ∃ s'', brelease hdRdwt s' bh = .ok s'' ∧ s''.blk = s'.blk

variable {memory : Nat → BufferHead} {blk : BlkState (Ram × E)} {start stop : Int}

/-! ## The loop -/

/-- The headers after `n` rounds. -/
def madeHeads (memory : Nat → BufferHead) (stop : Int) (n k : Nat) : BufferHead :=
  if k < n then { memory k with bUptodate := 0, bData := stop - blockSize * (k + 1) } else memory k

/-- The buffers that fit: each takes a header and a block, and the distance of the pointers is a
positive long. -/
def rounds (start stop : Int) : Nat :=
  if stop - start - 1024 < 2 ^ 31 then ((stop - start) / 1080).toNat else 0

theorem lt_rounds_iff {j : Nat} : j < rounds start stop ↔
    stop - start - 1024 < 2 ^ 31 ∧ 1080 * ((j : Int) + 1) ≤ stop - start := by
  rw [rounds]
  by_cases hlong : stop - start - 1024 < 2 ^ 31
  · rw [if_pos hlong]
    omega
  · rw [if_neg hlong]
    omega

/-- The test of round `j`. -/
theorem test_iff (h : Region start stop) {j : Nat} (hj : j ≤ rounds start stop) :
    sizeofBufferHead ≤ wrap (stop - blockSize - blockSize * j - (start + sizeofBufferHead * j)) ↔
      j < rounds start stop := by
  have hle := h.le
  have hsize := h.size
  have hdiff : stop - (blockSize : Int) - blockSize * j - (start + sizeofBufferHead * j) =
      stop - start - 1024 - 1080 * j := by
    simp only [blockSize, sizeofBufferHead]
    push_cast
    ring
  rw [hdiff, lt_rounds_iff, sizeofBufferHead]
  by_cases hlong : stop - start - 1024 < 2 ^ 31
  · have hj' : 1080 * (j : Int) ≤ stop - start := by
      cases j with
      | zero => omega
      | succ j =>
        have hfits := (lt_rounds_iff.mp hj).2
        push_cast
        exact hfits
    rw [wrap_of_range (by omega) (by omega)]
    omega
  · have hzero : j = 0 := by
      by_contra hne
      exact hlong (lt_rounds_iff.mp (Nat.lt_of_lt_of_le (Nat.pos_of_ne_zero hne) hj)).1
    simp only [wrap, hzero]
    omega

theorem reached_iff (h : Region start stop) {n : Nat} :
    Reached start stop n ↔ n ≤ rounds start stop := by
  constructor
  · intro hn
    by_contra hlt
    exact lt_irrefl _ ((test_iff h le_rfl).mp (hn _ (not_le.mp hlt)))
  · exact fun hn j hj => (test_iff h (hj.le.trans hn)).mpr (by omega)

theorem madeHeads_succ (memory : Nat → BufferHead) (stop : Int) (n : Nat) :
    Function.update (madeHeads memory stop n) n { madeHeads memory stop n n with
      bUptodate := 0, bData := stop - blockSize - blockSize * n } = madeHeads memory stop (n + 1) := by
  ext1 k
  by_cases hk : k = n
  · have hself : madeHeads memory stop n n = memory n := if_neg (lt_irrefl n)
    have hblock : stop - (blockSize : Int) - blockSize * n = stop - blockSize * (n + 1) := by
      ring
    rw [hk, Function.update_self, hself, madeHeads, if_pos (Nat.lt_succ_self n), hblock]
  · rw [Function.update_of_ne hk, madeHeads, madeHeads]
    by_cases hlt : k < n
    · rw [if_pos hlt, if_pos (by omega)]
    · rw [if_neg hlt, if_neg (by omega)]

/-- From round `k` on the loop makes the rest of the buffers. -/
theorem initLoopLong_eq (h : Region start stop) {fuel k : Nat} (hk : k ≤ rounds start stop)
    (hfuel : rounds start stop < k + fuel) :
    initLoopLong fuel k (start + sizeofBufferHead * k) (stop - blockSize - blockSize * k)
        (madeHeads memory stop k) (List.range k).reverse =
      (rounds start stop, madeHeads memory stop (rounds start stop),
        (List.range (rounds start stop)).reverse) := by
  induction fuel generalizing k with
  | zero => omega
  | succ fuel ih =>
    rw [initLoopLong]
    by_cases hgo : k < rounds start stop
    · rw [if_pos ((test_iff h hk).mpr hgo), madeHeads_succ]
      have hrest := ih hgo (by omega)
      rw [List.range_succ, List.reverse_append] at hrest
      have hbuffer : start + sizeofBufferHead * k + sizeofBufferHead =
          start + sizeofBufferHead * (k + 1 : Nat) := by
        push_cast
        ring
      have hblock : stop - (blockSize : Int) - blockSize * k - blockSize =
          stop - blockSize - blockSize * (k + 1 : Nat) := by
        push_cast
        ring
      rw [hbuffer, hblock]
      exact hrest
    · have hend : k = rounds start stop := by omega
      rw [if_neg (fun htest => hgo ((test_iff h hk).mp htest)), hend]

theorem bufferInitLong_eq (h : Region start stop) :
    bufferInitLong memory blk start stop =
      { nrBuffers := rounds start stop
        heads := madeHeads memory stop (rounds start stop)
        cachedList := []
        freeList := (List.range (rounds start stop)).reverse
        blk := blk } := by
  have hle := h.le
  by_cases hsize : start = stop
  · subst hsize
    have hzero : rounds start start = 0 := by
      simp only [rounds, sub_self]
      rfl
    simp only [bufferInitLong, sub_self, Int.toNat_zero, initLoopLong, hzero]
    rfl
  · have hfuel : rounds start stop < 0 + (stop - start).toNat := by
      by_contra hmany
      have hfits := (lt_rounds_iff.mp (show rounds start stop - 1 < rounds start stop by omega)).2
      omega
    have hloop := @initLoopLong_eq memory start stop h _ 0 (Nat.zero_le _) hfuel
    simp only [Nat.cast_zero, mul_zero, add_zero, sub_zero, List.range_zero,
      List.reverse_nil] at hloop
    have hmade : madeHeads memory stop 0 = memory := rfl
    rw [hmade] at hloop
    simp only [bufferInitLong, hloop]

/-- On regions of less than 2 GiB the loop is the one on unbounded integers. -/
theorem initLoopLong_of_short {fuel k : Nat} {buffer block : Int} (heads : Nat → BufferHead)
    (free : List Nat) (hlo : -2 ^ 31 ≤ block - buffer) (hhi : block - buffer < 2 ^ 31) :
    initLoopLong fuel k buffer block heads free = initLoop fuel k buffer block heads free := by
  induction fuel generalizing k buffer block heads free with
  | zero => rfl
  | succ fuel ih =>
    rw [initLoopLong, initLoop, wrap_of_range hlo hhi]
    by_cases hgo : block - buffer ≥ sizeofBufferHead
    · rw [if_pos hgo, if_pos hgo]
      simp only [sizeofBufferHead, blockSize] at hgo ⊢
      exact ih _ _ (by push_cast; omega) (by push_cast; omega)
    · rw [if_neg hgo, if_neg hgo]

theorem bufferInitLong_of_short (h : start ≤ stop) (hshort : stop - start < 2 ^ 31) :
    bufferInitLong memory blk start stop = bufferInit memory blk start stop := by
  rw [bufferInitLong, bufferInit, initLoopLong_of_short]
  · simp only [blockSize]
    push_cast
    omega
  · simp only [blockSize]
    push_cast
    omega

/-! ## The layout -/

theorem headerBytes_disjoint (start : Int) {j k : Nat} (hne : j ≠ k) :
    Disjoint (headerBytes start j) (headerBytes start k) := by
  rw [headerBytes, headerBytes, Set.Ico_disjoint_Ico]
  simp only [sizeofBufferHead]
  omega

/-- Block `k` of the pool, counted from the end of the region. -/
theorem blockBytes_eq (memory : Nat → BufferHead) (stop : Int) {n k : Nat} (hk : k < n) :
    blockBytes (madeHeads memory stop n k).bData =
      Set.Ico (stop - 1024 * ((k : Int) + 1)) (stop - 1024 * k) := by
  have hdata : (madeHeads memory stop n k).bData = stop - 1024 * ((k : Int) + 1) := by
    rw [madeHeads, if_pos hk]
    rfl
  rw [blockBytes, hdata]
  congr 1
  simp only [blockSize]
  push_cast
  ring

theorem blockBytes_disjoint (memory : Nat → BufferHead) (stop : Int) {n j k : Nat} (hj : j < n)
    (hk : k < n) (hne : j ≠ k) : Disjoint (blockBytes (madeHeads memory stop n j).bData)
      (blockBytes (madeHeads memory stop n k).bData) := by
  rw [blockBytes_eq memory stop hj, blockBytes_eq memory stop hk, Set.Ico_disjoint_Ico]
  omega

theorem headerBytes_inside {k : Nat} (hk : k < rounds start stop) :
    headerBytes start k ⊆ Set.Ico start stop := by
  have hfits := (lt_rounds_iff.mp hk).2
  refine Set.Ico_subset_Ico ?_ ?_
  · simp only [sizeofBufferHead]
    omega
  · simp only [sizeofBufferHead]
    omega

theorem blockBytes_inside (memory : Nat → BufferHead) {k : Nat} (hk : k < rounds start stop) :
    blockBytes (madeHeads memory stop (rounds start stop) k).bData ⊆ Set.Ico start stop := by
  have hfits := (lt_rounds_iff.mp hk).2
  rw [blockBytes_eq memory stop hk]
  exact Set.Ico_subset_Ico (by omega) (by omega)

/-- The last header ends before the last block begins. -/
theorem header_block_disjoint (memory : Nat → BufferHead) {j k : Nat}
    (hj : j < rounds start stop) (hk : k < rounds start stop) :
    Disjoint (headerBytes start j)
      (blockBytes (madeHeads memory stop (rounds start stop) k).bData) := by
  have hj' := (lt_rounds_iff.mp hj).2
  have hk' := (lt_rounds_iff.mp hk).2
  rw [headerBytes, blockBytes_eq memory stop hk, Set.Ico_disjoint_Ico]
  simp only [sizeofBufferHead]
  omega

/-! ## The first bread -/

/-- The call may stop, but not at the assertion of bread. -/
def Passes {α : Type} (x : Kernel α) : Prop := x ≠ .error breadAssertion

theorem Passes.bind {α β : Type} {x : Kernel α} {f : α → Kernel β} (hx : Passes x)
    (hf : ∀ a, Passes (f a)) : Passes (x >>= f) := by
  intro h
  rcases bind_eq_error.mp h with herr | ⟨a, -, herr⟩
  · exact hx herr
  · exact hf a herr

theorem passes_ok {α : Type} (a : α) : Passes (Except.ok a : Kernel α) := nofun

theorem passes_error {α : Type} {e : Halt} (h : e ≠ breadAssertion) :
    Passes (Except.error e : Kernel α) :=
  fun heq => h (Except.error.inj heq)

theorem passes_assert {p : Prop} [Decidable p] {exp : String}
    (h : exp ≠ "cur != NULL && cur->b_count == 0") : Passes (assert p exp) := by
  intro herr
  obtain ⟨-, heq⟩ := assert_eq_error.mp herr
  exact h (Halt.assertFailed.inj heq).symm

theorem passes_access {p : Prop} [Decidable p] {what : String} : Passes (access p what) := by
  intro herr
  obtain ⟨-, heq⟩ := access_eq_error.mp herr
  cases heq

section Driver

variable {D : Type} {hdRdwt : BioCmd → D → Kernel D}

theorem hdHandleRequest_passes (h : ∀ cmd d, Passes (hdRdwt cmd d)) (request : Nat → BioRequest)
    (n : Nat) (head : Option Nat) (device : D) :
    Passes (hdHandleRequest hdRdwt request n head device) := by
  induction n generalizing head device with
  | zero =>
    cases head with
    | none => exact passes_ok device
    | some i => nofun
  | succ n ih =>
    cases head with
    | none => exact passes_ok device
    | some i => exact (h _ _).bind fun d => ih _ d

theorem llRwBlock_passes (h : ∀ cmd d, Passes (hdRdwt cmd d)) (b : BlkState D) (dev rw : Int)
    (sector count : Nat) (buffer : Int) :
    Passes (llRwBlock hdRdwt b dev rw sector count buffer) := by
  refine (passes_assert (by decide)).bind fun _ => (passes_assert (by decide)).bind fun _ => ?_
  split_ifs with hdev
  · exact passes_error (by decide)
  · simp only [addRequest]
    split_ifs with hfull hidle
    · exact passes_error (by decide)
    · refine Passes.bind ?_ fun _ => passes_ok _
      rw [bdReqHandle]
      split_ifs with hhd
      · exact hdHandleRequest_passes h _ _ _ _
      · exact passes_error (by decide)
    · exact passes_error (by decide)

end Driver

section FirstCalls

variable {hdRdwt : BioCmd → Ram × E → Kernel (Ram × E)} {s s' : Cache E} {dev blkNr : Int}
  {bh : Nat}

/-- bread on a cache in which no buffer was used yet takes the first free one. -/
theorem bread_fresh {rest : List Nat} (hcached : s.cachedList = []) (hfree : s.freeList = bh :: rest) :
    bread hdRdwt s dev blkNr = (do
      assert ((s.heads bh).bCount = 0) "cur != NULL && cur->b_count == 0"
      let s ← load hdRdwt (s.setLists [bh] ((bh :: rest).erase bh)) bh dev blkNr
      pure (bh, s)) := by
  simp only [bread, getFree, hcached, hfree, List.find?_nil, pure_eq_ok, ok_bind]

theorem bread_empty (hcached : s.cachedList = []) (hfree : s.freeList = []) :
    bread hdRdwt s dev blkNr = .error (.panic "Buffer: cache pool full") := by
  simp only [bread, getFree, hcached, hfree, List.find?_nil, recycle, if_true, error_bind]

theorem load_passes (h : ∀ cmd d, Passes (hdRdwt cmd d)) : Passes (load hdRdwt s bh dev blkNr) := by
  rw [load]
  refine Passes.bind ?_ fun sector => (llRwBlock_passes h _ _ _ _ _ _).bind fun _ => passes_ok _
  exact passes_access.bind fun _ => passes_ok _

/-- The reference of the first bread is the only one, and b_dirty is what the header had. -/
theorem load_head (h : load hdRdwt s bh dev blkNr = .ok s') :
    (s'.heads bh).bCount = 1 ∧ (s'.heads bh).bDirty = (s.heads bh).bDirty := by
  simp only [load, bind_eq_ok, pure_eq_ok, Except.ok.injEq] at h
  obtain ⟨sector, -, blk, -, rfl⟩ := h
  rw [setHead_heads_self]
  exact ⟨rfl, rfl⟩

theorem bread_fresh_ok {rest : List Nat} {b : Nat} (hcached : s.cachedList = [])
    (hfree : s.freeList = b :: rest) (h : bread hdRdwt s dev blkNr = .ok (bh, s')) :
    bh = b ∧ (s'.heads b).bCount = 1 ∧ (s'.heads b).bDirty = (s.heads b).bDirty := by
  rw [bread_fresh hcached hfree, bind_eq_ok] at h
  obtain ⟨_, -, h⟩ := h
  obtain ⟨s₁, hload, h⟩ := bind_eq_ok.mp h
  obtain ⟨rfl, rfl⟩ := Prod.mk.inj (Except.ok.inj h)
  have hhead := load_head hload
  exact ⟨rfl, hhead⟩

/-- The last release of a clean buffer leaves the disk alone. -/
theorem brelease_clean (hcount : (s.heads bh).bCount = 1) (hdirty : (s.heads bh).bDirty ≠ 1) :
    ∃ s', brelease hdRdwt s bh = .ok s' ∧ s'.blk = s.blk := by
  have hpos : (s.heads bh).bCount - 1 ≥ 0 := by omega
  refine ⟨_, ?_, setHead_blk s bh { s.heads bh with bCount := (s.heads bh).bCount - 1 }⟩
  simp only [brelease, assert_pos hpos, ok_bind]
  rw [if_neg (fun h => hdirty h.2)]
  rfl

end FirstCalls

/-! ## buffer_init -/

/-- The memory under every header the loop makes has b_dirty = 0 and b_count = 0. -/
def CleanMemory (memory : Nat → BufferHead) (start stop : Int) : Prop :=
  ∀ k : Nat, stop - start - 1024 < 2 ^ 31 → 1080 * ((k : Int) + 1) ≤ stop - start →
    (memory k).bDirty = 0 ∧ (memory k).bCount = 0

theorem established_of_clean (h : Region start stop) (hclean : CleanMemory memory start stop) :
    Established start stop (bufferInitLong memory blk start stop) := by
  have hheads : ∀ k < rounds start stop, (memory k).bDirty = 0 ∧ (memory k).bCount = 0 :=
    fun k hk => hclean k (lt_rounds_iff.mp hk).1 (lt_rounds_iff.mp hk).2
  have hmade : ∀ k < rounds start stop,
      (madeHeads memory stop (rounds start stop) k).bUptodate = 0 ∧
        (madeHeads memory stop (rounds start stop) k).bDirty = 0 ∧
          (madeHeads memory stop (rounds start stop) k).bCount = 0 := by
    intro k hk
    rw [madeHeads, if_pos hk]
    exact ⟨rfl, hheads k hk⟩
  rw [bufferInitLong_eq h]
  refine ⟨fun k hk => headerBytes_inside hk, fun k hk => blockBytes_inside memory hk,
    fun j _ k _ hne => headerBytes_disjoint start hne,
    fun j hj k hk hne => blockBytes_disjoint memory stop hj hk hne,
    fun j hj k hk => header_block_disjoint memory hj hk,
    ⟨(reached_iff h).mpr le_rfl, fun n hn => (reached_iff h).mp hn⟩, ?_, fun k => ?_, hmade,
    fun hdRdwt dev blkNr hdrv => ?_, fun hdRdwt dev blkNr bh s' hbread => ?_⟩
  · simp only [List.length_reverse, List.length_range]
  · rw [List.count_reverse, List.nodup_range.count]
    simp only [List.mem_range]
  · cases hn : rounds start stop with
    | zero =>
      rw [bread_empty rfl rfl]
      nofun
    | succ n =>
      rw [hn] at hmade
      rw [bread_fresh rfl (by rw [List.range_succ, List.reverse_append]; rfl),
        assert_pos (hmade n (Nat.lt_succ_self n)).2.2, ok_bind]
      exact (load_passes hdrv).bind fun _ => passes_ok _
  · cases hn : rounds start stop with
    | zero =>
      rw [hn, bread_empty rfl rfl] at hbread
      cases hbread
    | succ n =>
      rw [hn] at hmade hbread
      obtain ⟨rfl, hcount, hdirty⟩ := bread_fresh_ok rfl
        (by rw [List.range_succ, List.reverse_append]; rfl) hbread
      refine brelease_clean hcount ?_
      rw [hdirty, (hmade bh (Nat.lt_succ_self bh)).2.1]
      decide

/-- buffer_init establishes the cache invariant exactly in memory whose headers are clean. -/
theorem bufferInit_established_iff (h : Region start stop) :
    Established start stop (bufferInitLong memory blk start stop) ↔
      CleanMemory memory start stop := by
  refine ⟨fun hest k hshort hfits => ?_, established_of_clean h⟩
  have hk : k < rounds start stop := lt_rounds_iff.mpr ⟨hshort, hfits⟩
  have hclean := hest.clean
  rw [bufferInitLong_eq h] at hclean
  have hhead : (madeHeads memory stop (rounds start stop) k).bUptodate = 0 ∧
      (madeHeads memory stop (rounds start stop) k).bDirty = 0 ∧
        (madeHeads memory stop (rounds start stop) k).bCount = 0 := hclean k hk
  rw [madeHeads, if_pos hk] at hhead
  exact hhead.2

/-- A request table and a drive with nothing in them. -/
def idleBlk : BlkState (Ram × Unit) :=
  blkDevInit (fun _ => ⟨⟨0, 0, 0, 0⟩, 0, none, none⟩) (fun _ _ => 0, ())

/-- The region of kmain, in memory full of zeros. -/
theorem bufferInit_established_kmain : Established 0x20000 0x90000
    (bufferInitLong (fun _ => ⟨0, 0, 0, 0, 0, 0⟩) idleBlk 0x20000 0x90000) :=
  (bufferInit_established_iff ⟨by decide, by decide⟩).mpr fun _ _ _ => ⟨rfl, rfl⟩

/-- The same region, in memory full of ones: no bread gets past its assertion. -/
theorem bread_stops_in_dirty_memory :
    (∀ hdRdwt dev blkNr, bread hdRdwt
      (bufferInitLong (fun _ => ⟨1, 1, 1, 1, 1, 1⟩) idleBlk 0x20000 0x90000) dev blkNr =
        .error breadAssertion) ∧
      ¬Established 0x20000 0x90000
        (bufferInitLong (fun _ => ⟨1, 1, 1, 1, 1, 1⟩) idleBlk 0x20000 0x90000) := by
  have hregion : Region 0x20000 0x90000 := ⟨by decide, by decide⟩
  have hn : rounds 0x20000 0x90000 = 423 + 1 := by decide
  have hone : ∀ k < 424, (madeHeads (fun _ => ⟨1, 1, 1, 1, 1, 1⟩) 0x90000 424 k).bCount = 1 := by
    intro k hk
    rw [madeHeads, if_pos hk]
  rw [bufferInitLong_eq hregion, hn]
  constructor
  · intro hdRdwt dev blkNr
    have hcount : (madeHeads (fun _ => ⟨1, 1, 1, 1, 1, 1⟩) 0x90000 424 423).bCount ≠ 0 := by
      rw [hone 423 (by decide)]
      decide
    rw [bread_fresh rfl (by rw [List.range_succ, List.reverse_append]; rfl)]
    exact bind_eq_error.mpr (.inl (assert_eq_error.mpr ⟨hcount, rfl⟩))
  · intro hest
    have hzero := (hest.clean 0 (by decide)).2.2
    exact absurd (hzero.symm.trans (hone 0 (by decide))) (by decide)

end RxdOs.Blk.BufferInit
