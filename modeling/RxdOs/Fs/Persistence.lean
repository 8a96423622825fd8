/- RxdOs/Fs/Persistence
   source: fs/fs.c (fs_init, sys_open, sys_close, sys_read, sys_write, sys_lseek, sys_truncate)
   digest: Runs of the file calls and restarts are runs of a store of named files; what is written
   is read. -/

import RxdOs.Fs.FileStore

set_option autoImplicit false
set_option relaxedAutoImplicit false

namespace RxdOs.Fs.Persistence

open RxdOs.Base.Assert RxdOs.Lib.Execution RxdOs.Lib.NamedFiles RxdOs.Fs.Bitmap RxdOs.Fs.Zone
  RxdOs.Fs.ZoneMap RxdOs.Fs.FileBytes RxdOs.Fs.FileRead RxdOs.Fs.Name RxdOs.Fs.DentryCache RxdOs.Fs.Open
  RxdOs.Fs.PathResolution RxdOs.Fs.UserPaths RxdOs.Fs.FileBodies RxdOs.Fs.FileStore
open RxdOs.Fs.Layout hiding store

open RxdOs.Fs.Message (Found cleared)

variable {s s' s₁ : FsState}

/-! ## Runs -/

section Runs

variable {memory : FsState} {disk : Disk} {ptrs : Pointers}

theorem runs_good (h : Good s) {tr : List (Act × FsState)}
    (hrun : Exec FileStore.Step s tr) (hplain : Guarded Plain s tr) : Good (last s tr) := by
  refine (hrun.always_of_guarded (fun s a s' h hplain st => ?_) h hplain).last
  exact (h.step hplain st).1

/-- Every plain run of the file calls, restarts on the same disk included, is a run of the store of
named files. -/
theorem files_refine_store (hdisk : Usable disk)
    (hinit : DentryCache.fsInit memory disk ptrs = .ok s) {tr : List (Act × FsState)}
    (hrun : Exec FileStore.Step s tr) (hplain : Guarded Plain s tr) :
    Exec (Lib.NamedFiles.Step 0) (store s) (tr.map (Prod.map event store)) := by
  have hstep : ∀ s a s', Good s → Plain s a → FileStore.Step s a s' → Seen s a s' :=
    fun _ _ _ h hplain st => h.step hplain st
  exact hrun.simulates hstep (.fsInit hdisk hinit) hplain

/-- The call writes to other files only, or to other bytes of the file of that name. -/
def Untouched (c : FileName) (pos len : Nat) (s : FsState) (a : Act) : Prop :=
  Spares c pos len (store s) (event a)

/-- The bytes that a sys_write took from the user are those that a sys_read at that place returns,
after any plain run that leaves them untouched: through closing and opening, other files made and
written, and restarts. -/
theorem written_bytes_are_read (hdisk : Usable disk)
    (hinit : DentryCache.fsInit memory disk ptrs = .ok s) {before after : List (Act × FsState)}
    (hbefore : Exec FileStore.Step s before) (hplain : Guarded Plain s before)
    {fd fd' : Fin nrMaxOpen} {count : BitVec 32} {found found' : Found} {usr into into' : Nat → UInt8}
    {wptrs : Pointers} {ret ret' : Int} {c : FileName} {pos : Nat}
    (hwrite : FileStore.Step (last s before) (.write fd count found usr wptrs ret) s')
    (hputs : Plain (last s before) (.write fd count found usr wptrs ret))
    (hon : OpenOn c pos fd (store (last s before)))
    (hafter : Exec FileStore.Step s' after) (hplain' : Guarded Plain s' after)
    (hspares : Guarded (Untouched c pos count.toNat) s' after)
    (hread : FileStore.Step (last s' after) (.read fd' count found' into ret' into') s₁)
    (hgets : Plain (last s' after) (.read fd' count found' into ret' into'))
    (hon' : OpenOn c pos fd' (store (last s' after))) :
    ret' = count.toNat ∧ ∀ i < count.toNat, into' i = usr i := by
  have hstep : ∀ s a s', Good s → Plain s a → FileStore.Step s a s' → Seen s a s' :=
    fun _ _ _ h hplain st => h.step hplain st
  have h₁ : Good (last s before) := runs_good (.fsInit hdisk hinit) hbefore hplain
  obtain ⟨h₂, hwrote⟩ := h₁.step hputs hwrite
  have h₃ : Good (last s' after) := runs_good h₂ hafter hplain'
  obtain ⟨-, hgot⟩ := h₃.step hgets hread
  have hlen : ((List.range count.toNat).map usr).length = count.toNat := by
    rw [List.length_map, List.length_range]
  rw [event, ← last_map store event] at hgot
  rw [← last_map store event] at hon'
  have hkept : Guarded (Spares c pos ((List.range count.toNat).map usr).length) (store s')
      (after.map (Prod.map event store)) := by
    rw [hlen]
    exact Guarded.map store event hspares
  obtain ⟨hret, hdata⟩ := read_back hwrote hon (hafter.simulates hstep h₂ hplain') hkept hgot hon'
    hlen
  refine ⟨hret, fun i hi => ?_⟩
  rw [hret, Int.toNat_natCast] at hdata
  exact (List.map_inj_left.mp hdata) i (List.mem_range.mpr hi)

end Runs

/-! ## A file is written, and read after a restart -/

section Story

/-- The states of a story on a zeroed disk: `/a` is created, written and closed; after a restart it
is opened and read. -/
structure Story where
  boot : FsState
  created : FsState
  written : FsState
  closed : FsState
  restarted : FsState
  opened : FsState
  done : FsState
  slot : Option (Fin nrMaxOpen)
  wrote : Int
  slot' : Option (Fin nrMaxOpen)
  got : Int
  bytes : Nat → UInt8

def story : Kernel Story := do
  let boot ← bootBlank
  let (slot, created) ← sysOpen boot (rootPath [97]) 1 plainEnv
  let (wrote, written) ← WriteThrough.sysWrite 2 created 0 3 cleared (fun _ => 97) fun _ => 0
  let closed ← sysClose written 0 plainEnv
  let restarted ← DentryCache.fsInit blankMemory closed.vol.disk fun _ => 0
  let (slot', opened) ← sysOpen restarted (rootPath [97]) 0 plainEnv
  let (got, bytes, done) ← readUser 2 opened 0 3 cleared fun _ => 0
  pure ⟨boot, created, written, closed, restarted, opened, done, slot, wrote, slot', got, bytes⟩

def Story.begin (r : Story) : List (Act × FsState) :=
  [(.open (rootPath [97]) 1 plainEnv r.slot, r.created)]

def Story.write (r : Story) : Act := .write 0 3 cleared (fun _ => 97) (fun _ => 0) r.wrote

def Story.between (r : Story) : List (Act × FsState) :=
  [(.close 0 plainEnv, r.closed), (.restart blankMemory fun _ => 0, r.restarted),
    (.open (rootPath [97]) 0 plainEnv r.slot', r.opened)]

def Story.read (r : Story) : Act := .read 0 3 cleared (fun _ => 0) r.got r.bytes

def fileA : FileName := ⟨[97], component_a⟩

/-- Descriptor 0 is the only one, and stands at the start of `/a`. -/
def AtStart (s : FsState) : Prop :=
  s.files = [0] ∧ s.filp 0 = some 0 ∧ (store s).opened 0 = some (2, 0) ∧
    (store s).names fileA = some 2

/-- `/a` can be opened. -/
def CanOpen (s : FsState) : Prop :=
  (s.dentry .root).dInode = some .root ∧
    0 ≤ (s.vol.inode (AliasLists.nextInode s plainEnv)).iRefcnt ∧
    (s.vol.inode .root).iSize < maxSize

instance (s : FsState) : Decidable (AtStart s) := inferInstanceAs (Decidable (_ ∧ _))

instance (s : FsState) : Decidable (CanOpen s) := inferInstanceAs (Decidable (_ ∧ _))

theorem story_run : ∃ r, story = .ok r ∧ (CanOpen r.boot ∧ ¬InodeBit r.boot.vol.disk 2) ∧
    AtStart r.created ∧ (r.written.files = [0] ∧ r.written.filp 0 = some 0) ∧
    CanOpen r.restarted ∧ AtStart r.opened := by
  have hrun : (match story with
      | .ok r => decide ((CanOpen r.boot ∧ ¬MapBit r.boot.vol.disk super.sImapStart 2) ∧
          AtStart r.created ∧ (r.written.files = [0] ∧ r.written.filp 0 = some 0) ∧
          CanOpen r.restarted ∧ AtStart r.opened)
      | .error _ => false) = true := by decide +kernel
  split at hrun
  swap
  · cases hrun
  rename_i r hr
  exact ⟨r, hr, of_decide_eq_true hrun⟩

theorem AtStart.openAt (h : AtStart s) : OpenAt s 0 0 := by
  obtain ⟨hfiles, hfilp, -, -⟩ := h
  exact ⟨hfiles ▸ List.mem_singleton_self 0, hfilp⟩

theorem AtStart.openOn (h : AtStart s) : OpenOn fileA 0 0 (store s) := by
  obtain ⟨-, hfilp, hopened, hname⟩ := h
  exact ⟨0, 2, hfilp, hopened, hname⟩

theorem restBytes_le (pos count : Nat) : restBytes pos count ≤ count := by
  have hsplit := first_add_rest pos count
  omega

/-- Three bytes are never too many. -/
theorem plain_read (h : AtStart s) {ret : Int} {found : Found} {usr usr' : Nat → UInt8} :
    Plain s (.read 0 3 found usr ret usr') := by
  refine ⟨0, h.openAt, fun o _ => ?_⟩
  have hrest := restBytes_le o.fPos.toNat (FileIo.available o (3 : BitVec 32).toNat)
  have hav : FileIo.available o (3 : BitVec 32).toNat ≤ 3 := min_le_left _ _
  omega

theorem plain_write (h : AtStart s) {ret : Int} {found : Found} {usr : Nat → UInt8} {ptrs : Pointers} :
    Plain s (.write 0 3 found usr ptrs ret) := by
  refine ⟨0, h.openAt, ?_⟩
  have hrest := restBytes_le (s.file 0).fPos.toNat (3 : BitVec 32).toNat
  have hthree : (3 : BitVec 32).toNat = 3 := rfl
  omega

/-- The steps of the story, each of them plain. -/
structure Story.Told (r : Story) : Prop where
  boot : bootBlank = .ok r.boot
  begins : Exec FileStore.Step r.boot r.begin
  writes : FileStore.Step r.created r.write r.written
  goes : Exec FileStore.Step r.written r.between
  reads : FileStore.Step r.opened r.read r.done
  plain : Guarded Plain r.boot r.begin
  plain' : Guarded Plain r.written r.between
  before : AtStart r.created
  after : AtStart r.opened

theorem story_told : ∃ r : Story, r.Told := by
  obtain ⟨r, hr, ⟨⟨hroot, hspare, hsize⟩, hbit⟩, hstart, ⟨hfiles, hfilp⟩, ⟨hroot', hspare', hsize'⟩,
    hagain⟩ := story_run
  refine ⟨r, ?_⟩
  have hplain : Plain r.boot (.open (rootPath [97]) 1 plainEnv r.slot) :=
    polite_a 1 hroot hspare (fun _ => hbit) hsize
  have hclose : Plain r.written (.close 0 plainEnv) := by
    refine ⟨0, ⟨hfiles ▸ List.mem_singleton_self 0, hfilp⟩, fun g hg _ => ?_⟩
    rw [hfiles] at hg
    exact List.mem_singleton.mp hg
  have hopen : Plain r.restarted (.open (rootPath [97]) 0 plainEnv r.slot') :=
    polite_a 0 hroot' hspare' (fun hcreat => absurd hcreat (by decide)) hsize'
  simp only [story, bind_eq_ok, pure_eq_ok, Except.ok.injEq] at hr
  obtain ⟨boot, hboot, ⟨slot, created⟩, hcreated, ⟨wrote, written⟩, hwritten, closed, hclosed,
    restarted, hrestarted, ⟨slot', opened⟩, hopened, ⟨got, bytes, done⟩, hdone, rfl⟩ := hr
  exact ⟨hboot, .cons (.open hcreated) (.nil _), .write hwritten,
    .cons (.close hclosed) (.cons (.restart hrestarted) (.cons (.open hopened) (.nil _))),
    .read hdone, ⟨hplain, trivial⟩, ⟨hclose, trivial, hopen, trivial⟩, hstart, hagain⟩

theorem usable_blank : Usable fun _ => zeroBlock := by
  intro hmagic
  exact absurd hmagic (by decide)

/-- `/a` is created, written, closed and opened again after a restart. -/
theorem files_refine_store_a : ∃ s tr, bootBlank = .ok s ∧ tr.length = 5 ∧ Exec FileStore.Step s tr ∧
    Exec (Lib.NamedFiles.Step 0) (store s) (tr.map (Prod.map event store)) := by
  obtain ⟨r, h⟩ := story_told
  have hrun : Exec FileStore.Step r.boot (r.begin ++ (r.write, r.written) :: r.between) := by
    cases h.begins with
    | cons st _ => exact .cons st (.cons h.writes h.goes)
  have hplain : Guarded Plain r.boot (r.begin ++ (r.write, r.written) :: r.between) :=
    ⟨h.plain.1, plain_write h.before, h.plain'⟩
  exact ⟨r.boot, _, h.boot, rfl, hrun, files_refine_store usable_blank h.boot hrun hplain⟩

/-- The three bytes of `/a` are read back after the restart. -/
theorem written_bytes_are_read_a : ∃ r : Story, bootBlank = .ok r.boot ∧
    Exec FileStore.Step r.written r.between ∧ FileStore.Step r.opened r.read r.done ∧ r.got = 3 ∧
    ∀ i < 3, r.bytes i = 97 := by
  obtain ⟨r, h⟩ := story_told
  have hspares : Guarded (Untouched fileA 0 3) r.written r.between :=
    ⟨trivial, trivial, trivial, trivial⟩
  obtain ⟨hret, hbytes⟩ := written_bytes_are_read usable_blank h.boot h.begins h.plain h.writes
    (plain_write h.before) h.before.openOn h.goes h.plain' hspares h.reads (plain_read h.after)
    h.after.openOn
  exact ⟨r, h.boot, h.goes, h.reads, hret, hbytes⟩

end Story

end RxdOs.Fs.Persistence
