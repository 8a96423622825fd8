/- RxdOs/Blk/BufferHolds
   source: kernel/blk_drv/buffer.c
   digest: Who holds which buffer over whole runs, whatever the drive does, and when bread
   finds a buffer for a block that is not cached. -/

import RxdOs.Lib.Execution
import RxdOs.Blk.Hd

set_option autoImplicit false
set_option relaxedAutoImplicit false

namespace RxdOs.Blk.BufferHolds

open RxdOs.Base.Assert RxdOs.Lib.Execution RxdOs.Blk.Request RxdOs.Blk.Buffer RxdOs.Blk.Hd

/-- The cache over the hard disk driver, with one entry of `held` for each bread not yet
released. -/
structure Client where
  cache : Cache Drive
  held : List Nat

inductive Call
  | read (dev blkNr : Int)
  | write (bh : Nat) (data : Block)
  | release (bh : Nat)

/-- One call; only held buffers are written and released. -/
def Client.call (c : Client) : Call → Kernel Client
  | .read dev blkNr => do
    let (bh, cache) ← bread hdRequest c.cache dev blkNr
    pure ⟨cache, bh :: c.held⟩
  | .write bh data => do
    access (bh ∈ c.held) "bh->b_data"
    pure ⟨bwrite (setData c.cache bh data) bh, c.held⟩
  | .release bh => do
    access (bh ∈ c.held) "brelease(bh)"
    let cache ← brelease hdRequest c.cache bh
    pure ⟨cache, c.held.erase bh⟩

/-- One returning call. -/
def Step (c : Client) (a : Call) (c' : Client) : Prop := c.call a = .ok c'

/-- After blk_dev_init and buffer_init, over any memory and any drive. -/
def start (memory : Nat → BufferHead) (request : Nat → BioRequest) (ram : Ram) (drive : Drive)
    (low high : Int) : Client where
  cache := bufferInit memory (blkDevInit request (ram, drive)) low high
  held := []

structure Inv (c : Client) : Prop where
  idle : c.cache.blk.bdRequest blkDevHd = none
  nodup : (c.cache.cachedList ++ c.cache.freeList).Nodup
  apart : ∀ b ∈ c.cache.cachedList ++ c.cache.freeList,
    ∀ b' ∈ c.cache.cachedList ++ c.cache.freeList,
      (c.cache.heads b).bData = (c.cache.heads b').bData → b = b'
  count : ∀ b ∈ c.cache.cachedList, (c.cache.heads b).bCount = c.held.count b
  held : ∀ b ∈ c.held, b ∈ c.cache.cachedList

variable {c c' : Client} {bh : Nat} {dev blkNr : Int}

theorem Inv.cached_nodup (h : Inv c) : c.cache.cachedList.Nodup := h.nodup.of_append_left

theorem Inv.not_free (h : Inv c) {b : Nat} (hb : b ∈ c.cache.cachedList) :
    b ∉ c.cache.freeList :=
  fun hf => List.disjoint_of_nodup_append h.nodup hb hf

/-- Somebody holds exactly the cached buffers whose count is not zero. -/
theorem Inv.held_iff (h : Inv c) {b : Nat} (hb : b ∈ c.cache.cachedList) :
    b ∈ c.held ↔ (c.cache.heads b).bCount ≠ 0 := by
  rw [h.count b hb, ← List.count_pos_iff]
  omega

/-- A buffer whose count is zero belongs to nobody. -/
theorem Inv.idle_not_held (h : Inv c) {b : Nat} (hb : (c.cache.heads b).bCount = 0) :
    b ∉ c.held :=
  fun hmem => (h.held_iff (h.held b hmem)).mp hmem hb

theorem Inv.start (memory : Nat → BufferHead) (request : Nat → BioRequest) (ram : Ram)
    (drive : Drive) (low high : Int) : Inv (start memory request ram drive low high) where
  idle := rfl
  nodup := (initLoop_spec _ _ _ _ _ _ (.nil _ _ _)).1
  apart := (initLoop_spec _ _ _ _ _ _ (.nil _ _ _)).2
  count := by simp [BufferHolds.start, bufferInit]
  held := by simp [BufferHolds.start]

/-! ## One call -/

/-- After a miss has filled `bh`: the search left `cached` and `free`, the driver `blk`. -/
def Client.loaded (c : Client) (bh : Nat) (cached free : List Nat) (blkNr : Int)
    (blk : BlkState (Ram × Drive)) : Client where
  cache := { c.cache.setLists (bh :: cached) (free.erase bh) with blk := blk }.setHead bh
    ⟨blkDevHd, blkNr, 1, (c.cache.heads bh).bData, (c.cache.heads bh).bDirty, 1⟩
  held := bh :: c.held

/-- After a release has taken one reference off. -/
def Client.dropped (c : Client) (bh : Nat) (blk : BlkState (Ram × Drive)) (dirty : Int) :
    Client where
  cache := { c.cache with blk := blk }.setHead bh
    { c.cache.heads bh with bCount := (c.cache.heads bh).bCount - 1, bDirty := dirty }
  held := c.held.erase bh

theorem loaded_bData (c : Client) (bh : Nat) (cached free : List Nat) (blkNr : Int)
    (blk : BlkState (Ram × Drive)) (b : Nat) :
    ((c.loaded bh cached free blkNr blk).cache.heads b).bData = (c.cache.heads b).bData := by
  simp only [Client.loaded, setHead_heads]
  split_ifs with heq
  · rw [heq]
  · rfl

/-- A call that leaves the lists and the blocks of the buffers where they are. -/
theorem Inv.update (h : Inv c) (hidle : c'.cache.blk.bdRequest blkDevHd = none)
    (hcached : c'.cache.cachedList = c.cache.cachedList)
    (hfree : c'.cache.freeList = c.cache.freeList)
    (hdata : ∀ b, (c'.cache.heads b).bData = (c.cache.heads b).bData)
    (hcount : ∀ b ∈ c.cache.cachedList, (c'.cache.heads b).bCount = c'.held.count b)
    (hheld : ∀ b ∈ c'.held, b ∈ c.cache.cachedList) : Inv c' where
  idle := hidle
  nodup := by rw [hcached, hfree]; exact h.nodup
  apart := by simpa only [hcached, hfree, hdata] using h.apart
  count := by rw [hcached]; exact hcount
  held := by rw [hcached]; exact hheld

/-- Buffers nobody holds may go back to the free list. -/
theorem Inv.moved (h : Inv c) {cached free : List Nat}
    (hm : Moved c.cache.heads c.cache.cachedList c.cache.freeList cached free) :
    Inv ⟨c.cache.setLists cached free, c.held⟩ where
  idle := h.idle
  nodup := hm.perm.nodup_iff.mpr h.nodup
  apart b hb b' hb' := h.apart b (hm.perm.mem_iff.mp hb) b' (hm.perm.mem_iff.mp hb')
  count b hb := h.count b (hm.sub b hb)
  held b hb := hm.kept b (h.held b hb) ((h.held_iff (h.held b hb)).mp hb)

/-- bread of a block that is not cached, in a buffer from the free list. -/
theorem Inv.load (h : Inv c) (hbh : bh ∈ c.cache.freeList) (blkNr : Int)
    {blk : BlkState (Ram × Drive)} (hidle : blk.bdRequest blkDevHd = none) :
    Inv (c.loaded bh c.cache.cachedList c.cache.freeList blkNr blk) := by
  have hnew : ∀ b ∈ c.cache.cachedList, b ≠ bh := fun b hb heq => h.not_free hb (heq ▸ hbh)
  have hperm : ((bh :: c.cache.cachedList) ++ c.cache.freeList.erase bh).Perm
      (c.cache.cachedList ++ c.cache.freeList) :=
    List.perm_middle.symm.trans ((List.perm_cons_erase hbh).symm.append_left _)
  refine ⟨hidle, hperm.nodup_iff.mpr h.nodup, fun b hb b' hb' heq => ?_, fun b hb => ?_,
    fun b hb => ?_⟩
  · refine h.apart b (hperm.mem_iff.mp hb) b' (hperm.mem_iff.mp hb') ?_
    rwa [loaded_bData, loaded_bData] at heq
  · rcases List.mem_cons.mp hb with rfl | hb
    · have hnone : c.held.count b = 0 :=
        List.count_eq_zero.mpr fun hmem => hnew _ (h.held b hmem) rfl
      simp [Client.loaded, hnone]
    · show _ = ((bh :: c.held).count b : Int)
      rw [Client.loaded, setHead_heads_of_ne _ _ _ (hnew b hb),
        List.count_cons_of_ne (hnew b hb).symm]
      exact h.count b hb
  · rcases List.mem_cons.mp hb with rfl | hb
    · exact List.mem_cons_self ..
    · exact List.mem_cons_of_mem _ (h.held b hb)

/-- bread of a block that a cached buffer represents. -/
theorem Inv.hit (h : Inv c) (hbh : bh ∈ c.cache.cachedList) :
    Inv ⟨c.cache.setHead bh { c.cache.heads bh with bCount := (c.cache.heads bh).bCount + 1 },
      bh :: c.held⟩ := by
  refine h.update h.idle rfl rfl (fun b => ?_) (fun b hb => ?_) (fun b hb => ?_)
  · simp only [setHead_heads]
    split_ifs with heq <;> simp [heq]
  · by_cases heq : b = bh
    · rw [heq, setHead_heads_self, List.count_cons_self]
      push_cast
      rw [h.count bh hbh]
    · rw [setHead_heads_of_ne _ _ _ heq, List.count_cons_of_ne (Ne.symm heq)]
      exact h.count b hb
  · rcases List.mem_cons.mp hb with rfl | hb
    · exact hbh
    · exact h.held b hb

theorem Inv.write (h : Inv c) (data : Block) : Inv ⟨bwrite (setData c.cache bh data) bh, c.held⟩ := by
  refine h.update h.idle rfl rfl (fun b => ?_) (fun b hb => ?_) h.held
  · simp only [bwrite, setHead_heads]
    split_ifs with heq <;> simp [heq, setData]
  · have hcount := h.count b hb
    simp only [bwrite, setHead_heads]
    split_ifs with heq
    · rw [← heq]
      exact hcount
    · exact hcount

/-- A release takes one reference off; the disk and b_dirty are another matter. -/
theorem Inv.drop (h : Inv c) (hbh : bh ∈ c.held) {blk : BlkState (Ram × Drive)}
    (hidle : blk.bdRequest blkDevHd = none) (dirty : Int) : Inv (c.dropped bh blk dirty) := by
  refine h.update hidle rfl rfl (fun b => ?_) (fun b hb => ?_)
    (fun b hb => h.held b (List.mem_of_mem_erase hb))
  · simp only [Client.dropped, setHead_heads]
    split_ifs with heq <;> simp [heq]
  · have hcount := h.count b hb
    by_cases heq : b = bh
    · subst heq
      have hpos := List.count_pos_iff.mpr hbh
      show (c.dropped b blk dirty |>.cache.heads b).bCount = ((c.held.erase b).count b : Int)
      rw [Client.dropped, setHead_heads_self, List.count_erase_self]
      show (c.cache.heads b).bCount - 1 = _
      omega
    · show _ = ((c.held.erase bh).count b : Int)
      rw [Client.dropped, setHead_heads_of_ne _ _ _ heq, List.count_erase_of_ne heq]
      exact hcount

/-- What a call that returns has done. -/
inductive Outcome (c : Client) : Call → Client → Prop
  | hit {dev blkNr : Int} {bh : Nat} (hbh : bh ∈ c.cache.cachedList)
      (hhit : Hit (c.cache.heads bh) dev blkNr) :
      Outcome c (.read dev blkNr)
        ⟨c.cache.setHead bh { c.cache.heads bh with bCount := (c.cache.heads bh).bCount + 1 },
          bh :: c.held⟩
  | miss {blkNr : Int} {bh : Nat} {cached free : List Nat} {blk : BlkState (Ram × Drive)}
      (hmiss : ∀ b ∈ c.cache.cachedList, ¬Hit (c.cache.heads b) blkDevHd blkNr)
      (hmoved : Moved c.cache.heads c.cache.cachedList c.cache.freeList cached free)
      (hbh : bh ∈ free) (hidle : blk.bdRequest blkDevHd = none)
      (hdrive : hdRequest ⟨bioRead, sectorNr blkNr, sectorsPerBlk, (c.cache.heads bh).bData⟩
        c.cache.blk.device = .ok blk.device) :
      Outcome c (.read blkDevHd blkNr) (c.loaded bh cached free blkNr blk)
  | write {bh : Nat} (data : Block) (hbh : bh ∈ c.held) :
      Outcome c (.write bh data) ⟨bwrite (setData c.cache bh data) bh, c.held⟩
  | drop {bh : Nat} (hbh : bh ∈ c.held) :
      Outcome c (.release bh) (c.dropped bh c.cache.blk (c.cache.heads bh).bDirty)
  | sync {bh : Nat} {blk : BlkState (Ram × Drive)} (hbh : bh ∈ c.held)
      (hidle : blk.bdRequest blkDevHd = none)
      (hdrive : hdRequest ⟨bioWrite, sectorNr (c.cache.heads bh).bBlocknr, sectorsPerBlk,
        (c.cache.heads bh).bData⟩ c.cache.blk.device = .ok blk.device) :
      Outcome c (.release bh) (c.dropped bh blk 0)

theorem Inv.outcome {a : Call} (h : Inv c) (st : Step c a c') : Outcome c a c' := by
  cases a with
  | read dev blkNr =>
    simp only [Step, Client.call, bind_eq_ok, pure_eq_ok, Except.ok.injEq] at st
    obtain ⟨⟨bh, cache⟩, hread, rfl⟩ := st
    obtain ⟨hbh, hhit, rfl⟩ | ⟨hmiss, cached, free, hmoved, hbh, -, hload⟩ :=
      bread_ok h.cached_nodup hread
    · exact .hit hbh hhit
    · obtain ⟨rfl, -, blk, hdrive, hidle, rfl⟩ := load_ok (by exact h.idle) hload
      exact .miss hmiss hmoved hbh hidle hdrive
  | write bh data =>
    simp only [Step, Client.call, bind_eq_ok, access_eq_ok, pure_eq_ok, Except.ok.injEq] at st
    obtain ⟨_, hbh, rfl⟩ := st
    exact .write data hbh
  | release bh =>
    simp only [Step, Client.call, bind_eq_ok, access_eq_ok, pure_eq_ok, Except.ok.injEq] at st
    obtain ⟨_, hbh, cache, hrelease, rfl⟩ := st
    obtain ⟨⟨hlast, -⟩, -, blk, hdrive, hidle, rfl⟩ | ⟨-, rfl⟩ := brelease_ok h.idle hrelease
    · have hsync := Outcome.sync hbh hidle hdrive
      rwa [Client.dropped, hlast] at hsync
    · exact .drop hbh

theorem Inv.step {a : Call} (h : Inv c) (st : Step c a c') : Inv c' := by
  cases h.outcome st with
  | hit hbh hhit => exact h.hit hbh
  | miss hmiss hmoved hbh hidle hdrive => exact (h.moved hmoved).load hbh _ hidle
  | write data hbh => exact h.write data
  | drop hbh => exact h.drop hbh h.idle _
  | sync hbh hidle hdrive => exact h.drop hbh hidle 0

/-! ## Finding a buffer -/

def poolFull : Halt := .panic "Buffer: cache pool full"

def notFree : Halt := .assertFailed "cur != NULL && cur->b_count == 0"

/-- Some buffer of the pool has no references. -/
def SomeIdle (c : Client) : Prop :=
  ∃ b ∈ c.cache.cachedList ++ c.cache.freeList, (c.cache.heads b).bCount = 0

/-- bread finds a buffer, and for a block that is not cached one that nobody holds. -/
structure Served (c : Client) (dev blkNr : Int) : Prop where
  noPanic : bread hdRequest c.cache dev blkNr ≠ .error poolFull
  noAssert : bread hdRequest c.cache dev blkNr ≠ .error notFree
  unheld : ∀ bh cache, bread hdRequest c.cache dev blkNr = .ok (bh, cache) →
    (∀ b ∈ c.cache.cachedList, ¬Hit (c.cache.heads b) dev blkNr) → bh ∉ c.held

/-- The buffer the search is going to end on has no references: the first one on free_list,
or, when that list is empty, the one that has been on cached_list longest. -/
def LastIdle (c : Client) : Prop :=
  match c.cache.freeList with
  | [] => ∃ b, c.cache.cachedList.getLast? = some b ∧ (c.cache.heads b).bCount = 0
  | b :: _ => (c.cache.heads b).bCount = 0

/-- The sweep ends with its cursor on the last buffer it has looked at. -/
theorem recycle_cursor (heads : Nat → BufferHead) (l : List Nat) (cur : Option Nat)
    (cached free : List Nat) :
    (recycle heads l cur cached free).1 = l.getLast?.or cur := by
  induction l generalizing cur cached free with
  | nil => rfl
  | cons a l ih =>
    rw [recycle]
    have hlast : (a :: l).getLast?.or cur = l.getLast?.or (some a) := by
      cases l with
      | nil => rfl
      | cons b l => rw [List.getLast?_cons_cons]; simp [List.getLast?_cons]
    split_ifs
    · rw [ih, hlast]
    · rw [ih, hlast]

theorem recycle_keeps_free (heads : Nat → BufferHead) (l : List Nat) (cur : Option Nat)
    (cached free : List Nat) {b : Nat} (hb : b ∈ free) :
    b ∈ (recycle heads l cur cached free).2.2 := by
  induction l generalizing cur cached free with
  | nil => exact hb
  | cons a l ih =>
    rw [recycle]
    split_ifs
    · exact ih _ _ _ (List.mem_cons_of_mem _ hb)
    · exact ih _ _ _ hb

/-- It puts every buffer without references on free_list. -/
theorem mem_recycle_free (heads : Nat → BufferHead) (l : List Nat) (cur : Option Nat)
    (cached free : List Nat) {b : Nat} (hb : b ∈ l) (hcount : (heads b).bCount = 0) :
    b ∈ (recycle heads l cur cached free).2.2 := by
  induction l generalizing cur cached free with
  | nil => cases hb
  | cons a l ih =>
    rw [recycle]
    rcases List.mem_cons.mp hb with rfl | hb
    · rw [if_pos hcount]
      exact recycle_keeps_free heads l _ _ _ (List.mem_cons_self ..)
    · split_ifs
      · exact ih _ _ _ hb
      · exact ih _ _ _ hb

/-- With some buffer idle the search ends on a buffer, and it has no references exactly when
the state says so. -/
theorem getFree_eq (hidle : SomeIdle c) : ∃ bh cached free,
    getFree c.cache = .ok (some bh, cached, free) ∧
      ((c.cache.heads bh).bCount = 0 ↔ LastIdle c) := by
  obtain ⟨b, hb, hcount⟩ := hidle
  cases hfree : c.cache.freeList with
  | cons bh rest =>
    refine ⟨bh, c.cache.cachedList, bh :: rest, ?_, ?_⟩
    · simp [getFree, hfree]
    · simp [LastIdle, hfree]
  | nil =>
    rw [hfree, List.append_nil] at hb
    have hne : c.cache.cachedList ≠ [] := List.ne_nil_of_mem hb
    have hlast := List.getLast?_eq_some_getLast hne
    have hcur : (recycle c.cache.heads c.cache.cachedList none c.cache.cachedList []).1 =
        some (c.cache.cachedList.getLast hne) := by
      rw [recycle_cursor, hlast]
      rfl
    have hsome : (recycle c.cache.heads c.cache.cachedList none c.cache.cachedList []).2.2 ≠ [] :=
      List.ne_nil_of_mem (mem_recycle_free _ _ _ _ _ hb hcount)
    generalize hr : recycle c.cache.heads c.cache.cachedList none c.cache.cachedList [] = r
      at hcur hsome
    refine ⟨c.cache.cachedList.getLast hne, r.2.1, r.2.2, ?_, ?_⟩
    · simp only [getFree, hfree, hr, if_neg hsome, ← hcur]
      rfl
    · simp [LastIdle, hfree, hlast]

/-! ## Where the search stops the kernel -/

/-- The call does not stop where the search for a buffer would. -/
structure PastSearch {α : Type} (x : Kernel α) : Prop where
  noPanic : x ≠ .error poolFull
  noAssert : x ≠ .error notFree

section PastSearch

variable {α β : Type} {x : Kernel α}

theorem PastSearch.ok (a : α) : PastSearch (.ok a : Kernel α) := ⟨nofun, nofun⟩

theorem PastSearch.error {e : Halt} (hpanic : e ≠ poolFull) (hassert : e ≠ notFree) :
    PastSearch (.error e : Kernel α) :=
  ⟨fun h => hpanic (Except.error.inj h), fun h => hassert (Except.error.inj h)⟩

theorem PastSearch.bind {f : α → Kernel β} (hx : PastSearch x) (hf : ∀ a, PastSearch (f a)) :
    PastSearch (x >>= f) := by
  cases x with
  | ok a => exact hf a
  | error e => exact .error (fun h => hx.noPanic (h ▸ rfl)) (fun h => hx.noAssert (h ▸ rfl))

theorem PastSearch.ite {p : Prop} [Decidable p] {y : Kernel α} (hx : PastSearch x)
    (hy : PastSearch y) : PastSearch (if p then x else y) := by
  split
  · exact hx
  · exact hy

theorem PastSearch.access (p : Prop) [Decidable p] (what : String) :
    PastSearch (access p what) :=
  .ite (.ok _) (.error nofun nofun)

theorem PastSearch.assert (p : Prop) [Decidable p] {exp : String}
    (h : exp ≠ "cur != NULL && cur->b_count == 0") : PastSearch (assert p exp) :=
  .ite (.ok _) (.error nofun fun heq => h (Halt.assertFailed.inj heq))

theorem PastSearch.panic {msg : String} (h : msg ≠ "Buffer: cache pool full") :
    PastSearch (.error (.panic msg) : Kernel α) :=
  .error (fun heq => h (Halt.panic.inj heq)) nofun

end PastSearch

theorem hdCmdOut_pastSearch (d : Drive) (devNr cmd count low high : Nat) :
    PastSearch (hdCmdOut d devNr cmd count low high) := by
  refine .bind (.assert _ (by decide)) fun _ => .ite (.panic (by decide)) ?_
  refine .ite (.panic (by decide)) (.ite (.panic (by decide)) (.bind ?_ fun _ => .ok _))
  unfold address
  split
  · exact .bind (.access _ _) fun _ => .ok _
  · exact .ok _
  · exact .ok _
  · exact .panic (by decide)

theorem readSectors_pastSearch (cmd : BioCmd) (n k : Nat) (ram : Ram) (d : Drive) :
    PastSearch (readSectors cmd n k ram d) := by
  induction n generalizing k ram d with
  | zero => exact .ok _
  | succ n ih => exact .bind (.access _ _) fun _ => ih _ _ _

theorem writeSectors_pastSearch (cmd : BioCmd) (n k : Nat) (ram : Ram) (d : Drive) :
    PastSearch (writeSectors cmd n k ram d) := by
  induction n generalizing k d with
  | zero => exact .ok _
  | succ n ih => exact .ite (.panic (by decide)) (.bind (.access _ _) fun _ => ih _ _)

theorem hdRequest_pastSearch (cmd : BioCmd) (m : Ram × Drive) : PastSearch (hdRequest cmd m) := by
  refine .bind (.bind (.assert _ (by decide)) fun _ => .ite (.ok _) (.ite ?_ (.ite ?_ ?_)))
    fun _ => .ok _
  · exact .bind (hdCmdOut_pastSearch ..) fun _ =>
      .bind (readSectors_pastSearch ..) fun _ => .ok _
  · exact .bind (hdCmdOut_pastSearch ..) fun _ =>
      .bind (writeSectors_pastSearch ..) fun _ => .ok _
  · exact .panic (by decide)

theorem hdHandleRequest_pastSearch (request : Nat → BioRequest) (n : Nat) (head : Option Nat)
    (m : Ram × Drive) : PastSearch (hdHandleRequest hdRequest request n head m) := by
  induction n generalizing head m with
  | zero =>
    cases head with
    | none => exact .ok _
    | some i => exact .error nofun nofun
  | succ n ih =>
    cases head with
    | none => exact .ok _
    | some i => exact .bind (hdRequest_pastSearch ..) fun _ => ih _ _

theorem load_pastSearch (s : Cache Drive) (bh : Nat) (dev blkNr : Int) :
    PastSearch (Buffer.load hdRequest s bh dev blkNr) := by
  refine .bind (.bind (.access _ _) fun _ => .ok _) fun _ => .bind ?_ fun _ => .ok _
  refine .bind (.assert _ (by decide)) fun _ => .bind (.assert _ (by decide)) fun _ => ?_
  refine .ite (.panic (by decide)) (.ite (.panic (by decide)) (.ite (.bind ?_ fun _ => .ok _) ?_))
  · exact .ite (hdHandleRequest_pastSearch ..) (.error nofun nofun)
  · exact .panic (by decide)

/-! ## Availability -/

theorem bread_hit {b : Nat} (hb : b ∈ c.cache.cachedList)
    (hhit : Hit (c.cache.heads b) dev blkNr) :
    ∃ r, bread hdRequest c.cache dev blkNr = .ok r := by
  unfold bread
  split
  · exact ⟨_, rfl⟩
  · rename_i hnone
    simp only [List.find?_eq_none, decide_eq_true_eq] at hnone
    exact absurd hhit (hnone b hb)

/-- A miss, once the search has ended on a buffer. -/
theorem bread_miss {cached free : List Nat}
    (hmiss : ∀ b ∈ c.cache.cachedList, ¬Hit (c.cache.heads b) dev blkNr)
    (hget : getFree c.cache = .ok (some bh, cached, free)) :
    bread hdRequest c.cache dev blkNr = (do
      assert ((c.cache.heads bh).bCount = 0) "cur != NULL && cur->b_count == 0"
      let s ← Buffer.load hdRequest (c.cache.setLists (bh :: cached) (free.erase bh)) bh dev blkNr
      pure (bh, s)) := by
  have hnone : (c.cache.cachedList.find? fun b => Hit (c.cache.heads b) dev blkNr) = none := by
    simpa using hmiss
  simp only [bread, hnone, hget, ok_bind]

/-- A buffer for a block that is not cached is found exactly when the one the search ends on
happens to be idle. -/
theorem bread_served_iff {memory : Nat → BufferHead} {request : Nat → BioRequest} {ram : Ram}
    {drive : Drive} {low high : Int}
    (hreach : Reach Step (start memory request ram drive low high) c) (hidle : SomeIdle c)
    (dev blkNr : Int) : Served c dev blkNr ↔
      (∃ b ∈ c.cache.cachedList, Hit (c.cache.heads b) dev blkNr) ∨ LastIdle c := by
  have hinv : Inv c := Reach.inv hreach (fun _ _ _ h st => h.step st) (.start ..)
  constructor
  · intro hserved
    by_contra hno
    obtain ⟨hmiss, hlast⟩ := not_or.mp hno
    obtain ⟨bh, cached, free, hget, hcount⟩ := getFree_eq hidle
    have hmiss' : ∀ b ∈ c.cache.cachedList, ¬Hit (c.cache.heads b) dev blkNr :=
      fun b hb hhit => hmiss ⟨b, hb, hhit⟩
    have heq := bread_miss hmiss' hget
    apply hserved.noAssert
    rw [heq, assert, if_neg (fun h => hlast (hcount.mp h))]
    rfl
  · intro h
    by_cases hmiss : ∀ b ∈ c.cache.cachedList, ¬Hit (c.cache.heads b) dev blkNr
    · have hlast : LastIdle c := h.resolve_left fun ⟨b, hb, hhit⟩ => hmiss b hb hhit
      obtain ⟨bh, cached, free, hget, hcount⟩ := getFree_eq hidle
      have heq := bread_miss hmiss hget
      rw [assert_pos (hcount.mpr hlast), ok_bind] at heq
      have hpast := PastSearch.bind (load_pastSearch
        (c.cache.setLists (bh :: cached) (free.erase bh)) bh dev blkNr)
        fun s => PastSearch.ok (bh, s)
      refine ⟨fun herr => hpast.noPanic (heq ▸ herr), fun herr => hpast.noAssert (heq ▸ herr),
        fun bh' cache hread _ => ?_⟩
      obtain ⟨hbh, hhit, -⟩ | ⟨-, _, _, -, -, hcount', -⟩ := bread_ok hinv.cached_nodup hread
      · exact absurd hhit (hmiss bh' hbh)
      · exact hinv.idle_not_held hcount'
    · push Not at hmiss
      obtain ⟨b, hb, hhit⟩ := hmiss
      obtain ⟨r, hr⟩ := bread_hit hb hhit
      refine ⟨?_, ?_, fun _ _ _ hmiss => absurd hhit (hmiss b hb)⟩
      · rw [hr]
        nofun
      · rw [hr]
        nofun

/-- An LBA28 drive that never shows BSY and always asks for data. -/
def readyDrive : Drive where
  addrMode := 1
  sectPerTrk := 0
  headNr := 0
  sectors _ _ := 0
  status _ := statDrq
  shown _ := statDrq
  stray _ _ := 0xff
  polls := 0
  transfers := 0
  ops := []
  done := []

/-- Two buffers over zeroed memory: 2160 bytes hold two heads and two blocks. -/
def twoBuffers : Client :=
  start (fun _ => ⟨0, 0, 0, 0, 0, 0⟩) (fun _ => ⟨⟨0, 0, 0, 0⟩, 0, none, none⟩) (fun _ _ => 0)
    readyDrive 0 2160

/-- Block 2 stays held, block 1 has been released. -/
def oldestReleased : List Call :=
  [.read blkDevHd 1, .read blkDevHd 2, .release 1]

/-- The pool is full, one buffer is held, and the sweep ends on the other one. -/
theorem bread_served_full_pool : ∃ c, Reach Step twoBuffers c ∧ c.cache.freeList = [] ∧
    c.held = [0] ∧ (c.cache.heads 0).bBlocknr = 2 ∧ (c.cache.heads 1).bBlocknr = 1 ∧
    Served c blkDevHd 3 := by
  have hrun : (match oldestReleased.foldlM Client.call twoBuffers with
      | .ok c => decide (c.cache.cachedList = [0, 1] ∧ c.cache.freeList = [] ∧ c.held = [0] ∧
          (c.cache.heads 0).bBlocknr = 2 ∧ (c.cache.heads 1).bBlocknr = 1 ∧
          (c.cache.heads 1).bCount = 0)
      | .error _ => false) = true := by
    decide +kernel
  split at hrun
  · rename_i c hc
    obtain ⟨hcached, hfree, hheld, hblk₀, hblk₁, hcount⟩ := of_decide_eq_true hrun
    have hreach : Reach Step twoBuffers c := reach_of_foldlM (fun _ _ _ hcall => hcall) hc
    have hidle : SomeIdle c := ⟨1, by simp [hcached], hcount⟩
    have hlast : LastIdle c := by
      rw [LastIdle, hfree]
      exact ⟨1, by rw [hcached]; rfl, hcount⟩
    exact ⟨c, hreach, hfree, hheld, hblk₀, hblk₁,
      (bread_served_iff hreach hidle blkDevHd 3).mpr (.inr hlast)⟩
  · exact absurd hrun (by simp)

/-- Block 1 stays held, block 2 has been released. -/
def pinnedCalls : List Call :=
  [.read blkDevHd 1, .read blkDevHd 2, .release 0]

/-- The buffer of block 2 is idle, but the sweep ends with its cursor on the one of block 1. -/
theorem idle_buffer_missed : ∃ c, Reach Step twoBuffers c ∧ SomeIdle c ∧
    bread hdRequest c.cache blkDevHd 3 = .error notFree := by
  have hrun : (match pinnedCalls.foldlM Client.call twoBuffers with
      | .ok c => decide (c.cache.cachedList = [0, 1] ∧ c.cache.freeList = [] ∧
          (c.cache.heads 0).bCount = 0 ∧ (c.cache.heads 0).bBlocknr = 2 ∧
          (c.cache.heads 1).bCount = 1 ∧ (c.cache.heads 1).bBlocknr = 1)
      | .error _ => false) = true := by
    decide +kernel
  split at hrun
  · rename_i c hc
    obtain ⟨hcached, hfree, hcount₀, hblk₀, hcount₁, hblk₁⟩ := of_decide_eq_true hrun
    refine ⟨c, reach_of_foldlM (fun _ _ _ hcall => hcall) hc, ⟨0, by simp [hcached], hcount₀⟩, ?_⟩
    have hget : getFree c.cache = .ok (some 1, [1], [0]) := by
      simp [getFree, hfree, hcached, recycle, hcount₀, hcount₁]
    have hmiss : ∀ b ∈ c.cache.cachedList, ¬Hit (c.cache.heads b) blkDevHd 3 := by
      simp [hcached, Hit, hblk₀, hblk₁]
    rw [bread_miss hmiss hget, hcount₁]
    rfl
  · exact absurd hrun (by simp)

end RxdOs.Blk.BufferHolds
