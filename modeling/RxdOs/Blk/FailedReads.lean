/- RxdOs/Blk/FailedReads
   source: kernel/blk_drv/buffer.c, kernel/blk_drv/hd.c
   digest: What the bytes of a cached buffer come from, over runs with a drive that may stay busy
   or fail. -/

import RxdOs.Blk.BufferHolds

set_option autoImplicit false
set_option relaxedAutoImplicit false

namespace RxdOs.Blk.FailedReads

open RxdOs.Base.Assert RxdOs.Lib.Execution RxdOs.Blk.Request RxdOs.Blk.Buffer RxdOs.Blk.Hd
open RxdOs.Blk.BufferHolds RxdOs.Lib.Search

/-- The reads served and the writes sent, latest first. -/
abbrev History := List BioCmd

def drive (c : Client) : Drive := c.cache.blk.device.2

def history (c : Client) : History := (drive c).done

/-- The latest read into the block at `buffer`. -/
def lastRead (history : History) (buffer : Int) : Option BioCmd :=
  history.find? fun cmd => cmd.rw = bioRead ∧ cmd.buffer = buffer

/-- The read of block `blkNr` into `buffer`. -/
def readOf (blkNr buffer : Int) : BioCmd := ⟨bioRead, sectorNr blkNr, sectorsPerBlk, buffer⟩

/-- Every write took a block back to the sectors its bytes had been read from. -/
def Sourced : History → Prop
  | [] => True
  | cmd :: rest =>
    (cmd.rw = bioWrite → lastRead rest cmd.buffer = some { cmd with rw := bioRead }) ∧
      Sourced rest

/-! ## Following the bytes -/

/-- What the drive has in the sectors of a block. -/
def diskBlock (d : Drive) (blkNr : Int) : Block := fun i =>
  d.sectors (sectorNr blkNr + i / 512) ⟨i % 512, inHalf_lt i⟩

/-- What a call that has filled `buffer` with block `blkNr` may be believed to have put there: the
block, if the read has been served to the end. -/
def believed (c c' : Client) (blkNr buffer : Int) : Option Block :=
  if history c' = readOf blkNr buffer :: history c then some (diskBlock (drive c) blkNr) else none

/-- For each buffer the bytes that the last served read of its block brought, with the stores of
its holders since; `none` when there was no such read. -/
abbrev Content := Nat → Option Block

def follow (c : Client) (content : Content) (a : Call) (c' : Client) : Content :=
  match a with
  | .read dev blkNr =>
    if ∃ b ∈ c.cache.cachedList, Hit (c.cache.heads b) dev blkNr then content
    else match c'.held with
      | [] => content
      | bh :: _ => Function.update content bh (believed c c' blkNr (c'.cache.heads bh).bData)
  | .write bh data => Function.update content bh ((content bh).map fun _ => data)
  | .release _ => content

/-- The cache and its clients, with the content that each buffer should have. -/
structure Followed where
  client : Client
  content : Content

/-- One returning call. -/
def Followed.Step (f : Followed) (a : Call) (f' : Followed) : Prop :=
  BufferHolds.Step f.client a f'.client ∧ f'.content = follow f.client f.content a f'.client

/-- After buffer_init: nothing has been read. -/
def Followed.start (memory : Nat → BufferHead) (request : Nat → BioRequest) (ram : Ram)
    (drive : Drive) (low high : Int) : Followed :=
  ⟨BufferHolds.start memory request ram drive low high, fun _ => none⟩

/-- What a hit may trust: a valid buffer was last filled by a served read of its own block, and
has the bytes of that read with the stores of its holders; what went back to the drive went to
where it had been read from. -/
structure Trusted (f : Followed) : Prop where
  filled : ∀ b ∈ f.client.cache.cachedList, (f.client.cache.heads b).bUptodate ≠ 0 →
    lastRead (history f.client) (f.client.cache.heads b).bData =
      some (readOf (f.client.cache.heads b).bBlocknr (f.client.cache.heads b).bData)
  bytes : ∀ b ∈ f.client.cache.cachedList, (f.client.cache.heads b).bUptodate ≠ 0 →
    f.content b = some (f.client.cache.data b)
  sourced : Sourced (history f.client)

/-- A read that goes to the drive finds it ready, and then serving both sectors. -/
def Answered (f : Followed) : Call → Prop
  | .read dev blkNr =>
    (∃ b ∈ f.client.cache.cachedList, Hit (f.client.cache.heads b) dev blkNr) ∨
      (drive f.client).Ready ∧ (drive f.client).ServesNext sectorsPerBlk
  | _ => True

variable {c c' : Client} {f f' : Followed}

/-- `Trusted` without asking for b_uptodate, on top of the structure of the pool. -/
structure Sound (f : Followed) : Prop where
  pool : Inv f.client
  filled : ∀ b ∈ f.client.cache.cachedList,
    lastRead (history f.client) (f.client.cache.heads b).bData =
      some (readOf (f.client.cache.heads b).bBlocknr (f.client.cache.heads b).bData)
  bytes : ∀ b ∈ f.client.cache.cachedList, f.content b = some (f.client.cache.data b)
  sourced : Sourced (history f.client)

theorem lastRead_read (blkNr buffer : Int) (history : History) :
    lastRead (readOf blkNr buffer :: history) buffer = some (readOf blkNr buffer) :=
  List.find?_cons_of_pos (by simp [readOf])

theorem lastRead_of_ne {cmd : BioCmd} {buffer : Int} (h : cmd.buffer ≠ buffer)
    (history : History) : lastRead (cmd :: history) buffer = lastRead history buffer :=
  List.find?_cons_of_neg (by simp [h])

theorem lastRead_write {cmd : BioCmd} (h : cmd.rw = bioWrite) (history : History) (buffer : Int) :
    lastRead (cmd :: history) buffer = lastRead history buffer :=
  List.find?_cons_of_neg (by simp [h, bioRead, bioWrite])

theorem sourced_read {cmd : BioCmd} (h : cmd.rw = bioRead) {history : History}
    (hs : Sourced history) : Sourced (cmd :: history) :=
  ⟨fun hw => absurd (h.symm.trans hw) (by decide), hs⟩

/-! ## What is followed over one call -/

section Follow

variable {content : Content} {dev blkNr : Int} {bh : Nat} {held : List Nat}

theorem follow_hit {b : Nat} (hb : b ∈ c.cache.cachedList)
    (hhit : Hit (c.cache.heads b) dev blkNr) :
    follow c content (.read dev blkNr) c' = content :=
  if_pos ⟨b, hb, hhit⟩

theorem follow_miss (hmiss : ∀ b ∈ c.cache.cachedList, ¬Hit (c.cache.heads b) dev blkNr)
    (hheld : c'.held = bh :: held) : follow c content (.read dev blkNr) c' =
      Function.update content bh (believed c c' blkNr (c'.cache.heads bh).bData) := by
  have hno : ¬∃ b ∈ c.cache.cachedList, Hit (c.cache.heads b) dev blkNr :=
    fun ⟨b, hb, hhit⟩ => hmiss b hb hhit
  simp only [follow, if_neg hno, hheld]

end Follow

/-- What has been filled has the identity and the place it had. -/
theorem setHead_ident {s : Cache Drive} {bh : Nat} {head : BufferHead}
    (hdata : head.bData = (s.heads bh).bData) (hblk : head.bBlocknr = (s.heads bh).bBlocknr)
    (b : Nat) : ((s.setHead bh head).heads b).bData = (s.heads b).bData ∧
      ((s.setHead bh head).heads b).bBlocknr = (s.heads b).bBlocknr := by
  rw [setHead_heads]
  split_ifs with heq
  · exact heq ▸ ⟨hdata, hblk⟩
  · exact ⟨rfl, rfl⟩

/-! ## One call -/

/-- Calls that leave the cached identities and the history alone. -/
theorem Sound.update (h : Sound f) (hpool : Inv f'.client)
    (hcached : ∀ b ∈ f'.client.cache.cachedList, b ∈ f.client.cache.cachedList)
    (hident : ∀ b, (f'.client.cache.heads b).bData = (f.client.cache.heads b).bData ∧
      (f'.client.cache.heads b).bBlocknr = (f.client.cache.heads b).bBlocknr)
    (hbytes : ∀ b ∈ f'.client.cache.cachedList, f'.content b = some (f'.client.cache.data b))
    (hhistory : history f'.client = history f.client) : Sound f' where
  pool := hpool
  filled b hb := by
    rw [hhistory, (hident b).1, (hident b).2]
    exact h.filled b (hcached b hb)
  bytes := hbytes
  sourced := hhistory ▸ h.sourced

/-- A served read has put the block where its buffer lies, and nothing else has moved. -/
theorem loaded_data {c : Client} {bh : Nat} {cached free : List Nat} {blkNr : Int}
    {blk : BlkState (Ram × Drive)}
    (hdrive : Carried (readOf blkNr (c.cache.heads bh).bData) c.cache.blk.device blk.device)
    {b : Nat} (hb : (c.cache.heads b).bData ≠ (c.cache.heads bh).bData) :
    (c.loaded bh cached free blkNr blk).cache.data b = c.cache.data b := by
  rw [Cache.data, loaded_bData]
  exact hdrive.others hb

/-- A completed read: the buffer has its own block, and no other buffer lies there. -/
theorem Sound.load (h : Sound f) {bh : Nat} {cached free : List Nat} {blkNr : Int}
    {blk : BlkState (Ram × Drive)}
    (hmoved : Moved f.client.cache.heads f.client.cache.cachedList f.client.cache.freeList
      cached free)
    (hbh : bh ∈ free) (hidle : blk.bdRequest blkDevHd = none)
    (hdrive : Carried (readOf blkNr (f.client.cache.heads bh).bData) f.client.cache.blk.device
      blk.device)
    (hready : (drive f.client).Ready) (hserves : (drive f.client).ServesNext sectorsPerBlk) :
    Sound ⟨f.client.loaded bh cached free blkNr blk, Function.update f.content bh
      (believed f.client (f.client.loaded bh cached free blkNr blk) blkNr
        ((f.client.loaded bh cached free blkNr blk).cache.heads bh).bData)⟩ := by
  have hpool := h.pool.moved hmoved
  have hdone := (hdrive.read_done_iff rfl).mpr ⟨hready, hserves⟩
  have hhistory : history (f.client.loaded bh cached free blkNr blk) =
      readOf blkNr (f.client.cache.heads bh).bData :: history f.client := hdone
  have hne : ∀ b ∈ cached, b ≠ bh := fun b hb heq => hpool.not_free hb (heq ▸ hbh)
  have hapart : ∀ b ∈ cached,
      (f.client.cache.heads b).bData ≠ (f.client.cache.heads bh).bData :=
    fun b hb heq => hne b hb
      (hpool.apart b (List.mem_append_left _ hb) bh (List.mem_append_right _ hbh) heq)
  refine ⟨hpool.load hbh _ hidle, fun b hb => ?_, fun b hb => ?_, ?_⟩
  · show lastRead (history (f.client.loaded bh cached free blkNr blk)) _ = _
    rw [hhistory, loaded_bData]
    rcases List.mem_cons.mp hb with rfl | hb
    · rw [lastRead_read, Client.loaded, setHead_heads_self]
    · rw [lastRead_of_ne (hapart b hb).symm, Client.loaded, setHead_heads_of_ne _ _ _ (hne b hb)]
      exact h.filled b (hmoved.sub b hb)
  · rcases List.mem_cons.mp hb with rfl | hb
    · show Function.update _ _ _ _ = _
      rw [Function.update_self, loaded_bData, believed, if_pos hhistory]
      congr 1
      funext i
      rw [Cache.data, loaded_bData]
      exact (hdrive.read_bytes rfl hready hserves i (by simp only [readOf, sectorsPerBlk]; omega)).symm
    · show Function.update _ _ _ _ = _
      rw [Function.update_of_ne (hne b hb), loaded_data hdrive (hapart b hb)]
      exact h.bytes b (hmoved.sub b hb)
  · show Sourced (history (f.client.loaded bh cached free blkNr blk))
    rw [hhistory]
    exact sourced_read rfl h.sourced

/-- A release that writes back takes the buffer to where it was read from. -/
theorem Sound.sync (h : Sound f) {bh : Nat} {blk : BlkState (Ram × Drive)}
    (hbh : bh ∈ f.client.held) (hidle : blk.bdRequest blkDevHd = none)
    (hram : blk.device.1 = f.client.cache.blk.device.1)
    (hdone : blk.device.2.done = ⟨bioWrite, sectorNr (f.client.cache.heads bh).bBlocknr,
      sectorsPerBlk, (f.client.cache.heads bh).bData⟩ :: history f.client) :
    Sound ⟨f.client.dropped bh blk 0, f.content⟩ := by
  have hhistory : history (f.client.dropped bh blk 0) = ⟨bioWrite,
    sectorNr (f.client.cache.heads bh).bBlocknr, sectorsPerBlk,
      (f.client.cache.heads bh).bData⟩ :: history f.client := hdone
  have hident := @setHead_ident { f.client.cache with blk := blk } bh
    { f.client.cache.heads bh with
      bCount := (f.client.cache.heads bh).bCount - 1, bDirty := 0 } rfl rfl
  refine ⟨h.pool.drop hbh hidle 0, fun b hb => ?_, fun b hb => ?_, ?_⟩
  · show lastRead (history (f.client.dropped bh blk 0)) _ = _
    rw [hhistory, lastRead_write rfl, Client.dropped, (hident b).1, (hident b).2]
    exact h.filled b hb
  · show f.content b = _
    rw [Cache.data, Client.dropped, (hident b).1]
    show _ = some (blk.device.1 _)
    rw [hram]
    exact h.bytes b hb
  · show Sourced (history (f.client.dropped bh blk 0))
    rw [hhistory]
    exact ⟨fun _ => h.filled bh (h.pool.held bh hbh), h.sourced⟩

/-- Stores of a holder reach the bytes of that buffer alone. -/
theorem Sound.write (h : Sound f) {bh : Nat} (hbh : bh ∈ f.client.held) (data : Block) :
    Sound ⟨⟨bwrite (setData f.client.cache bh data) bh, f.client.held⟩,
      Function.update f.content bh ((f.content bh).map fun _ => data)⟩ := by
  have hident := @setHead_ident (setData f.client.cache bh data) bh
    { (setData f.client.cache bh data).heads bh with bDirty := 1 } rfl rfl
  refine h.update (h.pool.write data) (fun _ hb => hb) hident (fun b hb => ?_) rfl
  show Function.update f.content bh ((f.content bh).map fun _ => data) b =
    some (Function.update f.client.cache.blk.device.1 (f.client.cache.heads bh).bData data _)
  rw [bwrite, (hident b).1]
  by_cases heq : b = bh
  · rw [heq, Function.update_self, h.bytes bh (h.pool.held bh hbh)]
    show some data = some (Function.update f.client.cache.blk.device.1
      (f.client.cache.heads bh).bData data (f.client.cache.heads bh).bData)
    rw [Function.update_self]
  · have hapart : (f.client.cache.heads b).bData ≠ (f.client.cache.heads bh).bData :=
      fun hdata => heq (h.pool.apart b (List.mem_append_left _ hb) bh
        (List.mem_append_left _ (h.pool.held bh hbh)) hdata)
    rw [Function.update_of_ne heq]
    exact (h.bytes b hb).trans (congrArg some (Function.update_of_ne hapart ..).symm)

/-- A release or a hit moves no byte. -/
theorem Sound.counted (h : Sound f) (hpool : Inv f'.client)
    (hcached : f'.client.cache.cachedList = f.client.cache.cachedList)
    (hident : ∀ b, (f'.client.cache.heads b).bData = (f.client.cache.heads b).bData ∧
      (f'.client.cache.heads b).bBlocknr = (f.client.cache.heads b).bBlocknr)
    (hram : f'.client.cache.blk.device.1 = f.client.cache.blk.device.1)
    (hcontent : f'.content = f.content)
    (hhistory : history f'.client = history f.client) : Sound f' := by
  refine h.update hpool (fun _ hb => hcached ▸ hb) hident (fun b hb => ?_) hhistory
  rw [hcontent, Cache.data, hram, (hident b).1]
  exact h.bytes b (hcached ▸ hb)

theorem Sound.step {a : Call} (h : Sound f) (hanswered : Answered f a)
    (st : Followed.Step f a f') : Sound f' := by
  obtain ⟨c', content'⟩ := f'
  obtain ⟨st, hcontent⟩ := st
  dsimp only at st hcontent
  subst hcontent
  have hpool := h.pool.step st
  cases h.pool.outcome st with
  | hit hbh hhit =>
    rw [follow_hit hbh hhit]
    exact h.counted hpool rfl (setHead_ident rfl rfl) rfl rfl rfl
  | miss hmiss hmoved hbh hidle hdrive =>
    obtain ⟨hready, hserves⟩ := hanswered.resolve_left fun ⟨b, hb, hhit⟩ => hmiss b hb hhit
    rw [follow_miss hmiss rfl]
    exact h.load hmoved hbh hidle (hdRequest_ok hdrive) hready hserves
  | write data hbh => exact h.write hbh data
  | drop hbh => exact h.counted hpool rfl (setHead_ident rfl rfl) rfl rfl rfl
  | @sync bh blk hbh hidle hdrive =>
    obtain ⟨hram, hdone⟩ := (hdRequest_ok hdrive).write_done rfl
    rcases hdone with hdone | hdone
    · exact h.counted hpool rfl (setHead_ident (s := { f.client.cache with blk := blk }) rfl rfl)
        hram rfl hdone
    · exact h.sync hbh hidle hram hdone

/-- A miss that the drive does not answer leaves a buffer marked valid that no served read has
filled. -/
theorem unanswered_read {blkNr : Int} (h : Inv f.client)
    (hmiss : ∀ b ∈ f.client.cache.cachedList, ¬Hit (f.client.cache.heads b) blkDevHd blkNr)
    (hno : ¬((drive f.client).Ready ∧ (drive f.client).ServesNext sectorsPerBlk))
    (st : Followed.Step f (.read blkDevHd blkNr) f') : ¬Trusted f' := by
  obtain ⟨c', content'⟩ := f'
  obtain ⟨st, hcontent⟩ := st
  dsimp only at st hcontent
  subst hcontent
  cases h.outcome st with
  | hit hbh hhit => exact absurd hhit (hmiss _ hbh)
  | @miss _ bh cached free blk _ hmoved hbh hidle hdrive =>
    intro htrusted
    have hnever : history (f.client.loaded bh cached free blkNr blk) ≠
        readOf blkNr (f.client.cache.heads bh).bData :: history f.client :=
      fun hdone => hno (((hdRequest_ok hdrive).read_done_iff rfl).mp hdone)
    have huptodate : ((f.client.loaded bh cached free blkNr blk).cache.heads bh).bUptodate ≠ 0 := by
      rw [Client.loaded, setHead_heads_self]
      exact one_ne_zero
    have hbytes := htrusted.bytes bh (List.mem_cons_self ..) huptodate
    dsimp only at hbytes
    rw [follow_miss hmiss rfl, Function.update_self, loaded_bData, believed, if_neg hnever]
      at hbytes
    cases hbytes

/-! ## Runs -/

section Runs

variable {memory : Nat → BufferHead} {request : Nat → BioRequest} {ram : Ram} {drive : Drive}
  {low high : Int} {tr : List (Call × Followed)}

theorem Sound.start (hdone : drive.done = []) :
    Sound (.start memory request ram drive low high) := by
  have hhistory : history (BufferHolds.start memory request ram drive low high) = [] := hdone
  refine ⟨.start .., fun b hb => absurd hb (List.not_mem_nil),
    fun b hb => absurd hb (List.not_mem_nil), ?_⟩
  show Sourced (history (BufferHolds.start memory request ram drive low high))
  rw [hhistory]
  trivial

end Runs

/-! ## Drives -/

/-- Never busy, and serving every transfer. -/
structure Steady (d : Drive) : Prop where
  idle : ∀ i, d.status i &&& statBusy = 0
  serves : ∀ n, Serves (d.shown n)

theorem Steady.ready {d : Drive} (h : Steady d) : d.Ready := ⟨0, by decide, h.idle _⟩

theorem Steady.answered (h : Steady (drive f.client)) (a : Call) : Answered f a := by
  cases a with
  | read dev blkNr => exact .inr ⟨h.ready, fun k _ => h.serves _⟩
  | write bh data => trivial
  | release bh => trivial

/-- No command has a part in what the drive shows. -/
theorem Steady.carried {cmd : BioCmd} {m m' : Ram × Drive} (h : Steady m.2)
    (hcmd : hdRequest cmd m = .ok m') : Steady m'.2 := by
  obtain ⟨hstatus, hshown⟩ := (hdRequest_ok hcmd).sameShow
  exact ⟨fun i => (congrFun hstatus i).symm ▸ h.idle i,
    fun n => (congrFun hshown n).symm ▸ h.serves n⟩

theorem Steady.step {a : Call} (h : Inv f.client) (hsteady : Steady (drive f.client))
    (st : Followed.Step f a f') : Steady (drive f'.client) := by
  obtain ⟨c', content'⟩ := f'
  obtain ⟨st, -⟩ := st
  cases h.outcome st with
  | hit _ _ => exact hsteady
  | miss _ _ _ _ hdrive => exact hsteady.carried hdrive
  | write _ _ => exact hsteady
  | drop _ => exact hsteady
  | sync _ _ hdrive => exact hsteady.carried hdrive

/-- On such a drive every read of every run is answered. -/
theorem Steady.guarded {tr : List (Call × Followed)} (hrun : Exec Followed.Step f tr)
    (h : Inv f.client) (hsteady : Steady (drive f.client)) : Guarded Answered f tr := by
  induction hrun with
  | nil f => trivial
  | @cons f f' a tr st _ ih => exact ⟨hsteady.answered a, ih (h.step st.1) (hsteady.step h st)⟩

/-- Block 1 is written and goes back to the drive, its buffer is taken for block 3, and block 1 is
read again into the buffer of block 2. -/
def rewritten : List Call :=
  [.read blkDevHd 1, .write 1 (fun _ => 7), .release 1, .read blkDevHd 2, .read blkDevHd 3,
    .release 0, .read blkDevHd 1]

/-- Two buffers as before, over another drive. -/
def twoBuffersOver (drive : Drive) : Client :=
  start (fun _ => ⟨0, 0, 0, 0, 0, 0⟩) (fun _ => ⟨⟨0, 0, 0, 0⟩, 0, none, none⟩) (fun _ _ => 0)
    drive 0 2160

theorem nothing_cached (drive : Drive) : ∀ b ∈ (twoBuffersOver drive).cache.cachedList,
    ¬Hit ((twoBuffersOver drive).cache.heads b) blkDevHd 1 := by
  intro b hb
  cases hb

theorem load_eq {s : Cache Drive} {bh sector : Nat} {dev blkNr : Int}
    {blk : BlkState (Ram × Drive)} (hsector : sectorOf blkNr = .ok sector)
    (hblk : llRwBlock hdRequest s.blk dev bioRead sector sectorsPerBlk (s.heads bh).bData =
      .ok blk) :
    Buffer.load hdRequest s bh dev blkNr = .ok ({ s with blk := blk }.setHead bh
      ⟨dev, blkNr, 1, (s.heads bh).bData, (s.heads bh).bDirty, 1⟩) := by
  simp only [Buffer.load, hsector, ok_bind, hblk]
  rfl

/-- Never busy, but with an error instead of data: STATUS stands at 0x41. -/
def failingDrive : Drive :=
  { readyDrive with status := fun _ => 0x41, shown := fun _ => 0x41 }

/-- hd_rdwt reads the data port without a look, and returns 0. -/
theorem error_read_cached : ∃ f,
    Followed.Step ⟨twoBuffersOver failingDrive, fun _ => none⟩ (.read blkDevHd 1) f ∧
      f.client.cache.data 1 0 = 0xff ∧ ¬Trusted f := by
  have hrun : (match (twoBuffersOver failingDrive).call (.read blkDevHd 1) with
      | .ok c => decide (c.cache.data 1 0 = 0xff)
      | .error _ => false) = true := by decide +kernel
  split at hrun
  · rename_i c hc
    have hinv : Inv (twoBuffersOver failingDrive) := .start ..
    have st : Followed.Step ⟨twoBuffersOver failingDrive, fun _ => none⟩ (.read blkDevHd 1)
        ⟨c, follow (twoBuffersOver failingDrive) (fun _ => none) (.read blkDevHd 1) c⟩ := ⟨hc, rfl⟩
    refine ⟨_, st, of_decide_eq_true hrun, unanswered_read hinv (nothing_cached failingDrive) ?_ st⟩
    intro h
    exact absurd (h.2 0 (by decide)) (by decide)
  · cases hrun

end RxdOs.Blk.FailedReads
