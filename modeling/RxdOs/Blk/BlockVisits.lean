/- RxdOs/Blk/BlockVisits
   source: kernel/blk_drv/buffer.c (bread, bwrite, brelease), fs/fs.c
   digest: Callers that hold one buffer at a time see the blocks of the disk: a visit through
   the buffer cache answers as one of the plain disk does. -/

import RxdOs.Lib.BlockPrograms
import RxdOs.Blk.BufferCoherence

set_option autoImplicit false
set_option relaxedAutoImplicit false

namespace RxdOs.Blk.BlockVisits

open RxdOs.Base.Assert RxdOs.Lib.BlockPrograms RxdOs.Blk.Request RxdOs.Blk.Buffer
  RxdOs.Blk.BufferCoherence

/-- What a caller does with one block: bread, then bwrite of what it has made of b_data or
nothing, then brelease. -/
def visit {E : Type} (hdRdwt : BioCmd → Ram × E → Kernel (Ram × E)) (dev : Int) :
    Server Nat Block Halt (Cache E) := fun s nr put => do
  let (bh, s) ← bread hdRdwt s dev nr
  let data := s.data bh
  let s := match put data with
    | some data => bwrite (setData s bh data) bh
    | none => s
  let s ← brelease hdRdwt s bh
  pure (data, s)

/-- Nobody holds a buffer. -/
def Quiet (s : Cache Disk) : Prop := ∃ spec, Inv ⟨s, [], spec⟩

instance (blkNr : Int) : Decidable (InRange blkNr) := inferInstanceAs (Decidable (_ ∧ _))

/-- The blocks of a disk, as far as they have sector numbers. -/
def blocksOf (disk : Disk) : Nat → Block := fun nr =>
  if InRange nr then diskBlock disk nr else fun _ => 0

/-- The blocks on the drive. -/
def shown (s : Cache Disk) : Nat → Block := blocksOf s.blk.device.2

/-- The blocks a cache shows while nobody holds a buffer. -/
def Shows (s : Cache Disk) (d : Nat → Block) : Prop := Quiet s ∧ shown s = d

variable {hdRdwt : BioCmd → Ram × Disk → Kernel (Ram × Disk)} {s s' : Cache Disk}
  {spec : Int → Int → Block} {d : Nat → Block} {nr : Nat}

/-! ## Between two visits -/

section Between

theorem inv_idle (h : Inv ⟨s, [], spec⟩) {b : Nat} (hb : b ∈ s.cachedList) :
    (s.heads b).bCount = 0 := by
  have hcount := (h.fits b hb).count
  simpa using hcount

/-- Every cached buffer is on the drive. -/
theorem Quiet.synced (h : Quiet s) {b : Nat} (hb : b ∈ s.cachedList) :
    (s.heads b).bCount = 0 ∧ (s.heads b).bDirty ≠ 1 ∧
      diskBlock s.blk.device.2 (s.heads b).bBlocknr = s.data b := by
  obtain ⟨spec, hinv⟩ := h
  have hidle := inv_idle hinv hb
  have hclean := (hinv.fits b hb).clean hidle
  exact ⟨hidle, hclean, (hinv.fits b hb).synced hclean⟩

/-- The drive has every block that callers know. -/
theorem inv_disk (h : Inv ⟨s, [], spec⟩) {blkNr : Int} (hnr : InRange blkNr) :
    diskBlock s.blk.device.2 blkNr = spec blkDevHd blkNr := by
  by_cases hex : ∃ b ∈ s.cachedList, (s.heads b).bBlocknr = blkNr
  · obtain ⟨b, hb, rfl⟩ := hex
    obtain ⟨-, -, hsynced⟩ := Quiet.synced ⟨spec, h⟩ hb
    exact hsynced.trans (h.fits b hb).content
  · exact h.absent blkNr hnr fun b hb heq => hex ⟨b, hb, heq⟩

theorem shown_of_inv (h : Inv ⟨s, [], spec⟩) (hnr : InRange nr) :
    shown s nr = spec blkDevHd nr := by
  rw [shown, blocksOf, if_pos hnr]
  exact inv_disk h hnr

theorem Quiet.start (memory : Nat → BufferHead) (request : Nat → BioRequest) (ram : Ram)
    (disk : Disk) (low high : Int) :
    Quiet (bufferInit memory (blkDevInit request (ram, disk)) low high) :=
  ⟨_, Inv.start memory request ram disk low high⟩

end Between

/-! ## One visit -/

section Visits

/-- A block that bread returns has a sector number. -/
theorem inRange_of_bread {c : Client} (h : Inv c) {dev blkNr : Int} {bh : Nat}
    (hread : bread hdRdwt c.cache dev blkNr = .ok (bh, s')) : InRange blkNr := by
  obtain ⟨hbh, hhit, -⟩ | ⟨-, cached, free, -, -, -, hload⟩ := bread_ok h.cached_nodup hread
  · rw [← hhit.2.2]
    exact (h.fits bh hbh).inRange
  · exact (load_ok (by exact h.idle) hload).2.1

/-- What is shown after a visit, from what callers know before and after it. -/
theorem shown_put {spec' : Int → Int → Block} {put : Block → Option Block}
    (h : Inv ⟨s, [], spec⟩) (h' : Inv ⟨s', [], spec'⟩) (hnr : InRange nr)
    (hput : ∀ n : Nat, spec' blkDevHd n = putAt (fun n : Nat => spec blkDevHd n) nr put n) :
    shown s' = putAt (shown s) nr put := by
  have hself := shown_of_inv h hnr
  funext n
  by_cases hn : InRange n
  · rw [shown_of_inv h' hn, hput, putAt, putAt, hself]
    cases put (spec blkDevHd nr) with
    | none => rw [Option.elim_none, Option.elim_none, shown_of_inv h hn]
    | some data =>
      rw [Option.elim_some, Option.elim_some, Function.update_apply, Function.update_apply, shown_of_inv h hn]
  · have hne : n ≠ nr := fun heq => hn (heq ▸ hnr)
    have hout : ∀ t : Cache Disk, shown t n = fun _ => 0 := by
      intro t
      rw [shown, blocksOf, if_neg hn]
    rw [hout s', putAt]
    cases put (shown s nr) with
    | none => rw [Option.elim_none, hout s]
    | some data => rw [Option.elim_some, Function.update_of_ne hne, hout s]

/-- The block as it was, and the cache with what was put back. -/
theorem answers_visit (hexact : Exact hdRdwt) :
    Prog.Answers Shows (visit hdRdwt blkDevHd) (plain : Server Nat Block Halt (Nat → Block)) := by
  rintro s _ nr put data s' ⟨⟨spec, hinv⟩, rfl⟩ hvisit
  simp only [visit, bind_eq_ok, pure_eq_ok, Except.ok.injEq, Prod.mk.injEq] at hvisit
  obtain ⟨⟨bh, s₁⟩, hread, s₂, hrelease, rfl, rfl⟩ := hvisit
  have hnr := inRange_of_bread hinv hread
  obtain ⟨hinv₁, hdata⟩ := hinv.read hexact hread
  have hdata : s₁.data bh = spec blkDevHd nr := hdata
  dsimp only at hrelease ⊢
  have hmem : (⟨bh, blkDevHd, nr⟩ : Hold) ∈ [(⟨bh, blkDevHd, nr⟩ : Hold)] :=
    List.mem_singleton_self _
  have herase : [(⟨bh, blkDevHd, nr⟩ : Hold)].erase ⟨bh, blkDevHd, nr⟩ = [] := by
    rw [List.erase_cons_head]
  refine ⟨putAt (shown s) nr put, by rw [plain, hdata, shown_of_inv hinv hnr], ?_⟩
  cases hput : put (s₁.data bh) with
  | none =>
    rw [hput] at hrelease
    have hinv₂ := hinv₁.release hexact hmem hrelease
    rw [herase] at hinv₂
    refine ⟨⟨spec, hinv₂⟩, shown_put hinv hinv₂ hnr fun n => ?_⟩
    rw [putAt, ← hdata, hput]
    rfl
  | some data =>
    rw [hput] at hrelease
    have hwrite := hinv₁.write hmem data
    have hinv₂ := hwrite.release hexact hmem hrelease
    rw [herase] at hinv₂
    refine ⟨⟨_, hinv₂⟩, shown_put hinv hinv₂ hnr fun n => ?_⟩
    rw [putAt, ← hdata, hput]
    show Function.update spec blkDevHd (Function.update (spec blkDevHd) (nr : Int) data) blkDevHd n =
      Function.update (fun n : Nat => spec blkDevHd n) nr data n
    rw [Function.update_self, Function.update_apply, Function.update_apply]
    exact if_congr Nat.cast_inj rfl rfl

end Visits

end RxdOs.Blk.BlockVisits
