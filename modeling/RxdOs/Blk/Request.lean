/- RxdOs/Blk/Request
   source: kernel/blk_drv/ll_rw_blk.c, kernel/blk_drv/blk.h, kernel/blk_drv/hd.c (hd_handle_request)
   digest: The request table between the buffer cache and the disk driver. -/

import RxdOs.Base.Assert
import RxdOs.Lib.Search

set_option autoImplicit false
set_option relaxedAutoImplicit false

namespace RxdOs.Blk.Request

open RxdOs.Base.Assert RxdOs.Lib.Search

def nrRequest : Nat := 32
def nrBlkDev : Int := 4
def bioRead : Int := 0
def bioWrite : Int := 1
def blkDevHd : Int := 3

/-- `buffer` is the address the driver transfers from or to. -/
structure BioCmd where
  rw : Int
  sector : Nat
  count : Nat
  buffer : Int
  deriving DecidableEq

/-- `next` points into the request table. -/
structure BioRequest where
  cmd : BioCmd
  dev : Int
  waiting : Option Nat
  next : Option Nat
  deriving DecidableEq

variable {D : Type}

/-- The static data of ll_rw_blk.c; `device` is everything hd_rdwt reads and writes. -/
structure BlkState (D : Type) where
  request : Nat → BioRequest
  bdRequest : Int → Option Nat
  device : D

/-- `while (head) { hd_rdwt(...); head = head->next; }`.  The result of hd_rdwt is
ignored; a list longer than the table would never end. -/
def hdHandleRequest (hdRdwt : BioCmd → D → Kernel D) (request : Nat → BioRequest) :
    Nat → Option Nat → D → Kernel D
  | _, none, device => pure device
  | 0, some _, _ => .error (.fault "head->next")
  | n + 1, some head, device => do
    let device ← hdRdwt (request head).cmd device
    hdHandleRequest hdRdwt request n (request head).next device

/-- `(blk_dev[dev].bd_req_handle)(head)`: only the hard disk has a handler. -/
def bdReqHandle (hdRdwt : BioCmd → D → Kernel D) (request : Nat → BioRequest) (dev : Int)
    (head : Option Nat) (device : D) : Kernel D :=
  if dev = blkDevHd then hdHandleRequest hdRdwt request nrRequest head device
  else .error (.fault "blk_dev[dev].bd_req_handle")

/-- A read searches the whole table for an empty slot, a write only its last two thirds. -/
def searchBegin (rw : Int) : Nat := if rw = bioRead then 0 else nrRequest / 3

def addRequest (hdRdwt : BioCmd → D → Kernel D) (b : BlkState D) (req : BioRequest) :
    Kernel (BlkState D) := do
  let start := searchBegin req.cmd.rw
  let i := firstFrom (fun i => (b.request i).dev = -1) (nrRequest - start) start
  if i = nrRequest then
    .error (.panic "BLK: Too many requests.")
  else
    let request := Function.update b.request i req
    if b.bdRequest (request i).dev = none then
      let device ← bdReqHandle hdRdwt request (request i).dev (some i) b.device
      -- bd_request goes to NULL again, request[i].dev stays
      pure { request := request,
             bdRequest := Function.update b.bdRequest (request i).dev none,
             device := device }
    else
      .error (.panic "BLK: We don't support wait request list now.")

def llRwBlock (hdRdwt : BioCmd → D → Kernel D) (b : BlkState D) (dev rw : Int)
    (sector count : Nat) (buffer : Int) : Kernel (BlkState D) := do
  assert (dev > 0 ∧ dev < nrBlkDev) "dev > 0 && dev < NR_BLK_DEV"
  assert (rw = bioRead ∨ rw = bioWrite) "rw == BIO_READ || rw == BIO_WRITE"
  if dev ≠ blkDevHd then
    .error (.panic "BLK: Device not supported.")
  else
    addRequest hdRdwt b ⟨⟨rw, sector, count, buffer⟩, dev, none, none⟩

/-- blk_dev_init on whatever the table held; the `blk_dev` entries are statically
idle, and `device` is the drive as hd_init leaves it. -/
def blkDevInit (request : Nat → BioRequest) (device : D) : BlkState D where
  request i := if i < nrRequest then { request i with dev := -1, next := none } else request i
  bdRequest _ := none
  device := device

/-! ## What one call does -/

variable {hdRdwt : BioCmd → D → Kernel D}

theorem hdHandleRequest_single (request : Nat → BioRequest) (n head : Nat) (device : D)
    (hnext : (request head).next = none) :
    hdHandleRequest hdRdwt request (n + 1) (some head) device =
      hdRdwt (request head).cmd device := by
  cases h : hdRdwt (request head).cmd device <;> simp [hdHandleRequest, hnext, h]

/-- The table after a call has put its request into slot `i`. -/
def BlkState.stored (b : BlkState D) (i : Nat) (req : BioRequest) (device : D) : BlkState D where
  request := Function.update b.request i req
  bdRequest := Function.update b.bdRequest blkDevHd none
  device := device

/-- A call on the idle hard disk, by the slot its search finds. -/
theorem llRwBlock_eq (b : BlkState D) (rw : Int) (sector count : Nat) (buffer : Int)
    (hidle : b.bdRequest blkDevHd = none) (hrw : rw = bioRead ∨ rw = bioWrite) {i : Nat}
    (hi : firstFrom (fun i => (b.request i).dev = -1) (nrRequest - searchBegin rw)
      (searchBegin rw) = i) :
    llRwBlock hdRdwt b blkDevHd rw sector count buffer =
      if i = nrRequest then .error (.panic "BLK: Too many requests.")
      else (do
        let device ← hdRdwt ⟨rw, sector, count, buffer⟩ b.device
        pure (b.stored i ⟨⟨rw, sector, count, buffer⟩, blkDevHd, none, none⟩ device)) := by
  have hdev : blkDevHd > 0 ∧ blkDevHd < nrBlkDev := by decide
  simp only [llRwBlock, assert_pos hdev, assert_pos hrw, ok_bind, ne_eq, not_true_eq_false,
    if_false, addRequest, hi, Function.update_self, hidle, if_true, bdReqHandle]
  rw [show nrRequest = 31 + 1 from rfl, hdHandleRequest_single _ _ _ _ (by simp)]
  simp only [Function.update_self]
  rfl

/-- A call that returns has made exactly the transfer it was asked for. -/
theorem llRwBlock_ok {b b' : BlkState D} {dev rw : Int} {sector count : Nat} {buffer : Int}
    (hidle : b.bdRequest blkDevHd = none)
    (h : llRwBlock hdRdwt b dev rw sector count buffer = .ok b') :
    dev = blkDevHd ∧ hdRdwt ⟨rw, sector, count, buffer⟩ b.device = .ok b'.device ∧
      b'.bdRequest blkDevHd = none := by
  have hdev : dev = blkDevHd := by
    by_contra hne
    simp [llRwBlock, bind_eq_ok, hne] at h
  have hrw : rw = bioRead ∨ rw = bioWrite := by
    simp only [llRwBlock, bind_eq_ok, assert_eq_ok] at h
    obtain ⟨_, _, _, hrw, _⟩ := h
    exact hrw
  subst hdev
  rw [llRwBlock_eq b rw sector count buffer hidle hrw rfl, ite_error_eq_ok] at h
  simp only [bind_eq_ok, pure_eq_ok, Except.ok.injEq] at h
  obtain ⟨-, device, hdrv, rfl⟩ := h
  exact ⟨rfl, hdrv, by simp [BlkState.stored]⟩

end RxdOs.Blk.Request
