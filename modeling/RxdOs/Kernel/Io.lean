/- RxdOs/Kernel/Io
   source: kernel/io.c, include/io.h
   digest: The keyboard interrupt: scan codes cooked through the terminal's two queues. -/

import RxdOs.Kernel.Keyboard
import RxdOs.Kernel.Queue

set_option autoImplicit false
set_option relaxedAutoImplicit false

namespace RxdOs.Kernel.Io

open RxdOs.Base.Assert RxdOs.Kernel.Keyboard RxdOs.Kernel.Queue

/-- `struct tty_struct` -/
structure Tty where
  kbFlag : BitVec 32
  readQ : TtyQueue
  secondary : TtyQueue

/-- The static data of io.c; `scrolled` lists what scroll_screen was called with, latest first. -/
structure Console where
  currentTty : Nat
  ttyTable : Nat → Tty
  scrolled : List Int

/-- `tty_table[1]` and the queues' pointers as they are loaded. -/
def booted : Console where
  currentTty := 0
  ttyTable _ := ⟨0, ⟨0, 0, 0, fun _ => 0⟩, ⟨0, 0, 0, fun _ => 0⟩⟩
  scrolled := []

def ttyInit (tty : Tty) : Tty :=
  { tty with readQ := tty.readQ.queueInit, secondary := tty.secondary.queueInit }

def ioInit (io : Console) : Console :=
  { io with currentTty := 0, ttyTable := Function.update io.ttyTable 0 (ttyInit (io.ttyTable 0)) }

/-- The argument is a plain char. -/
def isprint (c : BitVec 8) : Prop := c.toInt ≥ 0x20 ∧ c.toInt ≤ 0x7e

instance (c : BitVec 8) : Decidable (isprint c) := inferInstanceAs (Decidable (_ ∧ _))

inductive CookState
  | csError
  | csNormal
  | csE0
  | csDone
  deriving DecidableEq

/-- A make code sets the bit of a modifier, a break code clears it. -/
def makeBreak (scanCode kbFlag bit : BitVec 32) : BitVec 32 :=
  if scanCode &&& 0x80 ≠ 0 then kbFlag &&& ~~~bit else kbFlag ||| bit

/-- `filter` is the part of the output buffer `*count` covers. -/
def cook (scanCode : BitVec 32) (cstate : CookState) (kbFlag : BitVec 32)
    (filter : List (BitVec 8)) : Kernel (CookState × BitVec 32 × List (BitVec 8)) := do
  assert (scanCode &&& 0xffffff00 = 0 ∧ filter.length = 0) "!(scan_code & 0xffffff00) && *count == 0"
  match cstate with
  | .csNormal =>
    if scanCode = 0xe0 then pure (.csE0, kbFlag, filter)
    else do
      let key ← kbKeycode scanCode
      if key = keyCtrlL then pure (.csDone, makeBreak scanCode kbFlag kbFCtrl, filter)
      else if key = keyShiftL then pure (.csDone, makeBreak scanCode kbFlag kbFShift, filter)
      else if key = keyAltL then pure (.csDone, makeBreak scanCode kbFlag kbFAlt, filter)
      else if ¬scanCode &&& 0x80 ≠ 0 then do
        let c ← kbAscii scanCode kbFlag
        if isprint c then pure (.csDone, kbFlag, [c])
        else pure (.csDone, kbFlag, filter)
      else pure (.csDone, kbFlag, filter)
  | .csE0 => pure (.csDone, kbFlag, filter)
  | .csDone => .error (.panic "keyboard: bad scan code sequence")
  | .csError => .error (.panic "keyboard: unknown cook state")

/-- "queue restore" -/
def Tty.restore (tty : Tty) (saveHead saveCount : Nat) : Tty :=
  { tty with readQ := { tty.readQ with head := saveHead, count := saveCount } }

/-- The inner loop of tty_cook; `false` when read_q ran empty in the middle of a sequence.
Each round after the first takes a code from read_q. -/
def cookSequence (saveHead saveCount : Nat) :
    Nat → BitVec 32 → CookState → List (BitVec 8) → Tty → Kernel (Bool × List (BitVec 8) × Tty)
  | 0, _, _, _, _ => .error (.fault "while ((state = cook(...)) != CS_DONE)")
  | fuel + 1, scanCode, state, filter, tty => do
    let (state, kbFlag, filter) ← cook scanCode state tty.kbFlag filter
    let tty := { tty with kbFlag := kbFlag }
    if state = .csDone then pure (true, filter, tty)
    else if tty.readQ.queueEmpty then pure (false, filter, tty.restore saveHead saveCount)
    else do
      let (scanCode, readQ) ← tty.readQ.queueDeq
      cookSequence saveHead saveCount fuel scanCode state filter { tty with readQ := readQ }

/-- "copy result to secondary": the chars go to int cells. -/
def copyResult : List (BitVec 8) → TtyQueue → Kernel TtyQueue
  | [], secondary => pure secondary
  | c :: filter, secondary => do
    let secondary ← secondary.queueEnq (c.signExtend 32)
    copyResult filter secondary

/-- The outer loop of tty_cook; each round that goes on takes a code from read_q. -/
def cookLoop : Nat → Tty → Kernel Tty
  | 0, _ => .error (.fault "while (!QUEUE_FULL(tty->secondary) && !QUEUE_EMPTY(tty->read_q))")
  | fuel + 1, tty =>
    if ¬tty.secondary.queueFull ∧ ¬tty.readQ.queueEmpty then do
      let saveHead := tty.readQ.head
      let saveCount := tty.readQ.count
      let (scanCode, readQ) ← tty.readQ.queueDeq
      let (done, filter, tty) ← cookSequence saveHead saveCount (readQ.count + 1) scanCode
        .csNormal [] { tty with readQ := readQ }
      if done then
        if (queueBufSz : Int) - tty.secondary.count < filter.length then
          pure (tty.restore saveHead saveCount)
        else do
          let secondary ← copyResult filter tty.secondary
          cookLoop fuel { tty with secondary := secondary }
      else pure tty
    else pure tty

def ttyCook (tty : Tty) : Kernel Tty := cookLoop (tty.readQ.count + 1) tty

/-- The switch of on_keyboard_interrupt. -/
def scroll (scanCode : BitVec 8) (scrolled : List Int) : List Int :=
  if scanCode = 0x6A ∨ scanCode = 0x4A then 3 :: scrolled
  else if scanCode = 0x6B ∨ scanCode = 0x4B then -3 :: scrolled
  else scrolled

/-- The loop that empties `secondary`, with the characters it takes in order. -/
def drain : Nat → TtyQueue → List Int → Kernel (List (BitVec 8) × TtyQueue × List Int)
  | 0, _, _ => .error (.fault "while (!QUEUE_EMPTY(tty->secondary))")
  | fuel + 1, secondary, scrolled =>
    if ¬secondary.queueEmpty then do
      let (v, secondary) ← secondary.queueDeq
      let scanCode := v.setWidth 8
      let (taken, secondary, scrolled) ← drain fuel secondary (scroll scanCode scrolled)
      pure (scanCode :: taken, secondary, scrolled)
    else pure ([], secondary, scrolled)

/-- One interrupt with `scanCode` in the keyboard's data port; the result lists the characters
taken from `secondary`. -/
def onKeyboardInterrupt (scanCode : BitVec 8) (io : Console) :
    Kernel (List (BitVec 8) × Console) := do
  access (io.currentTty < 1) "tty_table[current_tty]"
  let tty := io.ttyTable io.currentTty
  if ¬tty.readQ.queueFull then do
    let readQ ← tty.readQ.queueEnq (scanCode.setWidth 32)
    let tty ← ttyCook { tty with readQ := readQ }
    let (taken, secondary, scrolled) ← drain (tty.secondary.count + 1) tty.secondary io.scrolled
    pure (taken, { io with
      ttyTable := Function.update io.ttyTable io.currentTty { tty with secondary := secondary }
      scrolled := scrolled })
  else .error (.panic "keyboard buffer is full")

/-- A stream of interrupts, one scan code each. -/
def deliver : List (BitVec 8) → Console → Kernel (List (BitVec 8) × Console)
  | [], io => pure ([], io)
  | code :: codes, io => do
    let (taken, io) ← onKeyboardInterrupt code io
    let (rest, io) ← deliver codes io
    pure (taken ++ rest, io)

end RxdOs.Kernel.Io
