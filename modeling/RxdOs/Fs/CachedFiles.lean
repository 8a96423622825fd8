/- RxdOs/Fs/CachedFiles
   source: fs/fs.c, fs/bitmap.h, kernel/blk_drv/buffer.c, kernel/blk_drv/ll_rw_blk.c
   digest: The file calls over the buffer cache and a drive: their runs are runs of the store of
   named files, and between two calls the drive has everything. -/

import RxdOs.Fs.BlockCalls
import RxdOs.Fs.Persistence

set_option autoImplicit false
set_option relaxedAutoImplicit false

namespace RxdOs.Fs.CachedFiles

open RxdOs.Base.Assert RxdOs.Lib.Execution RxdOs.Lib.BlockPrograms RxdOs.Lib.NamedFiles
  RxdOs.Blk.Request RxdOs.Blk.Buffer RxdOs.Blk.BlockVisits RxdOs.Fs.Name RxdOs.Fs.DentryCache
  RxdOs.Fs.FileStore RxdOs.Fs.BlockFunctions RxdOs.Fs.BlockCalls
open RxdOs.Fs.Layout (super InodeBit)
open RxdOs.Fs.Open (rootPath plainEnv blankMemory)
open RxdOs.Fs.UserPaths (polite_a)
open RxdOs.Fs.Persistence (CanOpen)
open RxdOs.Blk.BufferCoherence (Exact diskBlock plainHd plainHd_exact)

open RxdOs.Fs.Message (Found)

/-- The sectors of the drive. -/
abbrev Drive := Blk.BufferCoherence.Disk

/-- What memory and the drive hold. -/
structure Machine where
  fs : FsState
  cache : Cache Drive

/-- The state of the file calls, with the disk that the cache shows. -/
def Machine.view (m : Machine) : FsState := withDisk m.fs (shown m.cache)

theorem view_disk (m : Machine) : m.view.vol.disk = shown m.cache := by
  rw [Machine.view, withDisk, onDisk]

/-- Nobody holds a buffer. -/
def Machine.Idle (m : Machine) : Prop := Quiet m.cache

/-- What power leaves: the drive, and any memory for the buffers and the request table. -/
def powered (heads : Nat → BufferHead) (request : Nat → BioRequest) (ram : Ram)
    (drive : Drive) (low high : Int) : Cache Drive :=
  bufferInit heads (blkDevInit request (ram, drive)) low high

variable {hdRdwt : BioCmd → Ram × Drive → Kernel (Ram × Drive)} {m m' : Machine}

/-- The function runs through the buffer cache to its end. -/
def Runs {α : Type} (hdRdwt : BioCmd → Ram × Drive → Kernel (Ram × Drive)) (p : Blocks α)
    (c : Cache Drive) (a : α) (c' : Cache Drive) : Prop :=
  p.run (visit hdRdwt (super.sDev : Int)) c = .ok (a, c')

/-- A call that returns, or a restart on the drive as it is. -/
inductive Step (hdRdwt : BioCmd → Ram × Drive → Kernel (Ram × Drive)) :
    Machine → Act → Machine → Prop
  | open {m m' : Machine} {pathname : CStr} {flags : UInt32} {env : Env}
      {r : Option (Fin nrMaxOpen)} :
      Runs hdRdwt (sysOpen m.fs pathname flags env) m.cache (r, m'.fs) m'.cache →
      Step hdRdwt m (.open pathname flags env r) m'
  | close {m m' : Machine} {fd : Fin nrMaxOpen} {env : Env} :
      Runs hdRdwt (sysClose m.fs fd env) m.cache m'.fs m'.cache →
      Step hdRdwt m (.close fd env) m'
  | truncate {m m' : Machine} {pathname : CStr} {length ret : Int} {env : Env} :
      Runs hdRdwt (sysTruncate m.fs pathname length env) m.cache (ret, m'.fs) m'.cache →
      Step hdRdwt m (.truncate pathname length env ret) m'
  | read {m m' : Machine} {fuel : Nat} {fd : Fin nrMaxOpen} {count : BitVec 32}
      {found : Found} {usr usr' : Nat → UInt8} {ret : Int} :
      Runs hdRdwt (sysRead fuel m.fs fd count.toNat found usr) m.cache (ret, usr', m'.fs)
        m'.cache →
      Step hdRdwt m (.read fd count found usr ret usr') m'
  | write {m m' : Machine} {fuel : Nat} {fd : Fin nrMaxOpen} {count : BitVec 32}
      {found : Found} {usr : Nat → UInt8} {ptrs : Layout.Pointers} {ret : Int} :
      Runs hdRdwt (sysWrite fuel m.fs fd count.toNat found usr ptrs) m.cache (ret, m'.fs)
        m'.cache →
      Step hdRdwt m (.write fd count found usr ptrs ret) m'
  | lseek {m m' : Machine} {fd : Fin nrMaxOpen} {offset whence : BitVec 32} {ret : Int} :
      WriteThrough.sysLseek m.fs fd offset.toInt whence.toInt = .ok (ret, m'.fs) →
      m'.cache = m.cache → Step hdRdwt m (.lseek fd offset whence ret) m'
  | restart {m m' : Machine} {memory : FsState} {ptrs : Layout.Pointers}
      {heads : Nat → BufferHead} {request : Nat → BioRequest} {ram : Ram} {low high : Int} :
      Runs hdRdwt (fsInit memory ptrs) (powered heads request ram m.cache.blk.device.2 low high)
        m'.fs m'.cache →
      Step hdRdwt m (.restart memory ptrs) m'

/-! ## Through the cache -/

section Through

variable {c c' : Cache Drive}

theorem shown_powered (heads : Nat → BufferHead) (request : Nat → BioRequest) (ram : Ram)
    (low high : Int) :
    shown (powered heads request ram c.blk.device.2 low high) = shown c := rfl

theorem quiet_powered (heads : Nat → BufferHead) (request : Nat → BioRequest) (ram : Ram)
    (drive : Drive) (low high : Int) :
    Quiet (powered heads request ram drive low high) := .start ..

/-- A run through the cache is one on the disk that it shows. -/
theorem Runs.view (hexact : Exact hdRdwt) {α δ : Type} {p : Blocks α}
    {g : α × Bitmap.Disk → δ} {x : Bitmap.Disk → Kernel δ}
    (hplain : ∀ disk, (p.run plain disk).map g = x disk) (hquiet : Quiet c) {a : α}
    (hrun : Runs hdRdwt p c a c') :
    Quiet c' ∧ x (shown c) = .ok (g (a, shown c')) := by
  obtain ⟨d, hd, hquiet', rfl⟩ :=
    Prog.run_simulates (answers_visit hexact) ⟨hquiet, rfl⟩ hrun
  refine ⟨hquiet', ?_⟩
  rw [← hplain, hd]
  rfl

/-- sys_lseek visits no block. -/
theorem sysLseek_withDisk (s : FsState) (disk : Bitmap.Disk) (fd : Fin nrMaxOpen)
    (offset whence : Int) : WriteThrough.sysLseek (withDisk s disk) fd offset whence =
      (WriteThrough.sysLseek s fd offset whence).map fun r => (r.1, withDisk r.2 disk) := by
  rw [WriteThrough.sysLseek, WriteThrough.sysLseek, Prog.map_bind]
  refine bind_congr fun f => ?_
  dsimp only
  split_ifs
  · rfl
  · rfl
  · rw [Prog.map_bind]
    refine bind_congr fun d => ?_
    rw [Prog.map_bind]
    exact bind_congr fun _ => rfl
  · rfl

/-- A call of the machine is a call on the state that is seen. -/
theorem Step.view (hexact : Exact hdRdwt) (hquiet : m.Idle) {a : Act} (st : Step hdRdwt m a m') :
    m'.Idle ∧ FileStore.Step m.view a m'.view := by
  cases st with
  | «open» hopen =>
    obtain ⟨hquiet', hview⟩ := hopen.view hexact (fun _ => run_sysOpen _ _) hquiet
    dsimp only at hview
    exact ⟨hquiet', .open hview⟩
  | close hclose =>
    obtain ⟨hquiet', hview⟩ := hclose.view hexact (fun _ => run_sysClose _) hquiet
    dsimp only at hview
    exact ⟨hquiet', .close hview⟩
  | truncate htrunc =>
    obtain ⟨hquiet', hview⟩ := htrunc.view hexact (fun _ => run_sysTruncate _ _) hquiet
    dsimp only at hview
    exact ⟨hquiet', .truncate hview⟩
  | read hread =>
    obtain ⟨hquiet', hview⟩ := hread.view hexact (fun _ => run_sysRead _ _ _ _ _) hquiet
    dsimp only at hview
    exact ⟨hquiet', .read hview⟩
  | write hwrite =>
    obtain ⟨hquiet', hview⟩ := hwrite.view hexact (fun _ => run_sysWrite _ _ _ _ _ _) hquiet
    dsimp only at hview
    exact ⟨hquiet', .write hview⟩
  | lseek hseek hcache =>
    rename_i fd offset whence ret
    have hview := sysLseek_withDisk m.fs (shown m.cache) fd offset.toInt whence.toInt
    rw [hseek] at hview
    refine ⟨?_, .lseek ?_⟩
    · rw [Machine.Idle, hcache]
      exact hquiet
    · rw [Machine.view, Machine.view, hcache]
      exact hview
  | restart hinit =>
    obtain ⟨hquiet', hview⟩ := hinit.view hexact (fun _ => run_fsInit _ _) (quiet_powered ..)
    rw [shown_powered, ← view_disk] at hview
    dsimp only at hview
    exact ⟨hquiet', .restart hview⟩

end Through

/-! ## Runs -/

section Runs

variable {heads : Nat → BufferHead} {request : Nat → BioRequest} {ram : Ram} {drive : Drive}
  {low high : Int} {memory : FsState} {ptrs : Layout.Pointers}

/-- Over the buffer cache and a drive, every run of the file calls and restarts that looks plain is
a run of the store of named files; between the calls no buffer is held, and what is cached is on
the drive. -/
theorem cached_files_refine_store (hexact : Exact hdRdwt)
    (hdrive : Usable (blocksOf drive))
    (hboot : Runs hdRdwt (fsInit memory ptrs) (powered heads request ram drive low high) m.fs
      m.cache)
    {tr : List (Act × Machine)} (hrun : Exec (Step hdRdwt) m tr)
    (hplain : Guarded (fun m a => Plain m.view a) m tr) :
    Exec (Lib.NamedFiles.Step 0) (store m.view)
        (tr.map (Prod.map event fun m => store m.view)) ∧
      Always (fun m => ∀ b ∈ m.cache.cachedList, (m.cache.heads b).bCount = 0 ∧
        (m.cache.heads b).bDirty ≠ 1 ∧
        diskBlock m.cache.blk.device.2 (m.cache.heads b).bBlocknr = m.cache.data b) m tr := by
  obtain ⟨hquiet, hinit⟩ := hboot.view hexact (fun _ => run_fsInit _ _) (quiet_powered ..)
  dsimp only at hinit
  have hgood : Good m.view := .fsInit hdrive hinit
  have hstep : ∀ m a m', Good m.view ∧ m.Idle → Plain m.view a → Step hdRdwt m a m' →
      (Good m'.view ∧ m'.Idle) ∧
        Lib.NamedFiles.Step 0 (store m.view) (event a) (store m'.view) := by
    intro m a m' h hplain st
    obtain ⟨hquiet', hview⟩ := st.view hexact h.2
    obtain ⟨hgood', hseen⟩ := h.1.step hplain hview
    exact ⟨⟨hgood', hquiet'⟩, hseen⟩
  refine ⟨hrun.simulates hstep ⟨hgood, hquiet⟩ hplain, ?_⟩
  have hidle : Always Machine.Idle m tr :=
    hrun.always (fun m a m' h st => (st.view hexact h).1) hquiet
  refine hidle.imp ?_
  intro m h b hb
  exact Quiet.synced h hb

end Runs

/-! ## A file is created, and found after a restart -/

section Story

/-- Zeroed memory, with room for seven buffers. -/
def cold (drive : Drive) : Cache Drive :=
  powered (fun _ => ⟨0, 0, 0, 0, 0, 0⟩) (fun _ => ⟨⟨0, 0, 0, 0⟩, 0, none, none⟩) (fun _ _ => 0)
    drive 0 8000

/-- A function on the machine whose drive always transfers. -/
def through {α : Type} (p : Blocks α) (c : Cache Drive) : Kernel (α × Cache Drive) :=
  p.run (visit plainHd (super.sDev : Int)) c

structure Story where
  boot : Machine
  created : Machine
  restarted : Machine
  opened : Machine
  slot : Option (Fin nrMaxOpen)
  slot' : Option (Fin nrMaxOpen)

/-- A zeroed drive gets a file system with `/a` in it. -/
def story : Kernel Story := do
  let (fs, cache) ← through (fsInit blankMemory fun _ => 0) (cold fun _ _ => 0)
  let boot : Machine := ⟨fs, cache⟩
  let ((slot, fs), cache) ← through (sysOpen fs (rootPath [97]) 1 plainEnv) cache
  let created : Machine := ⟨fs, cache⟩
  let (fs, cache) ← through (fsInit blankMemory fun _ => 0) (cold cache.blk.device.2)
  let restarted : Machine := ⟨fs, cache⟩
  let ((slot', fs), cache) ← through (sysOpen fs (rootPath [97]) 0 plainEnv) cache
  pure ⟨boot, created, restarted, ⟨fs, cache⟩, slot, slot'⟩

theorem story_run : ∃ r, story = .ok r ∧ (CanOpen r.boot.view ∧ ¬InodeBit r.boot.view.vol.disk 2) ∧
    CanOpen r.restarted.view ∧ r.slot' = some 0 := by
  have hrun : (story.map fun r => decide ((CanOpen r.boot.view ∧
      ¬Bitmap.MapBit r.boot.view.vol.disk super.sImapStart 2) ∧ CanOpen r.restarted.view ∧
        r.slot' = some 0)).toOption = some true := by decide +kernel
  cases hr : story with
  | error e =>
    rw [hr] at hrun
    cases hrun
  | ok r =>
    rw [hr] at hrun
    exact ⟨r, rfl, of_decide_eq_true (Option.some.inj hrun)⟩

theorem usable_zero : Usable (blocksOf fun _ _ => 0) := by
  intro hmagic
  exact absurd hmagic (by decide)

/-- `/a` is created, and opened as descriptor 0 after a restart. -/
theorem cached_files_refine_store_a : ∃ m tr, tr.length = 3 ∧ Exec (Step plainHd) m tr ∧
    (∃ e, tr.getLast? = some (.open (rootPath [97]) 0 plainEnv (some 0), e)) ∧
    Exec (Lib.NamedFiles.Step 0) (store m.view)
      (tr.map (Prod.map event fun m => store m.view)) := by
  obtain ⟨r, hr, ⟨⟨hroot, hspare, hsize⟩, hbit⟩, ⟨hroot', hspare', hsize'⟩, hslot⟩ := story_run
  have hcreates : Plain r.boot.view (.open (rootPath [97]) 1 plainEnv r.slot) :=
    polite_a 1 hroot hspare (fun _ => hbit) hsize
  have hopens : Plain r.restarted.view (.open (rootPath [97]) 0 plainEnv r.slot') :=
    polite_a 0 hroot' hspare' (fun hcreat => absurd hcreat (by decide)) hsize'
  simp only [story, bind_eq_ok, pure_eq_ok, Except.ok.injEq] at hr
  obtain ⟨⟨fs, cache⟩, hboot, ⟨⟨slot, fs₁⟩, cache₁⟩, hcreated, ⟨fs₂, cache₂⟩, hrestarted,
    ⟨⟨slot', fs₃⟩, cache₃⟩, hopened, rfl⟩ := hr
  have hrun : Exec (Step plainHd) ⟨fs, cache⟩ [(.open (rootPath [97]) 1 plainEnv slot, ⟨fs₁, cache₁⟩),
      (.restart blankMemory fun _ => 0, ⟨fs₂, cache₂⟩),
      (.open (rootPath [97]) 0 plainEnv slot', ⟨fs₃, cache₃⟩)] :=
    .cons (.open hcreated) (.cons (.restart hrestarted) (.cons (.open hopened) (.nil _)))
  have hslot : slot' = some 0 := hslot
  subst hslot
  exact ⟨⟨fs, cache⟩, _, rfl, hrun, ⟨_, rfl⟩, (cached_files_refine_store (m := ⟨fs, cache⟩)
    plainHd_exact usable_zero hboot hrun ⟨hcreates, trivial, hopens, trivial⟩).1⟩

end Story

end RxdOs.Fs.CachedFiles
