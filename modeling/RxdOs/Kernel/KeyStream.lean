/- RxdOs/Kernel/KeyStream
   source: kernel/io.c, kernel/keyboard.c
   digest: Whole scan code streams: the interrupt handler against an automaton that reads the
   stream code by code. -/

import RxdOs.Kernel.Io

set_option autoImplicit false
set_option relaxedAutoImplicit false

namespace RxdOs.Kernel.KeyStream

open RxdOs.Base.Assert RxdOs.Kernel.Keyboard RxdOs.Kernel.Queue RxdOs.Kernel.Io

/-! ## The automaton -/

structure Modifiers where
  ctrl : Bool
  shift : Bool
  alt : Bool
  deriving DecidableEq

/-- `pending`: an 0xE0 has come and the code it goes with has not. -/
structure Keys where
  pending : Bool
  mods : Modifiers
  deriving DecidableEq

/-- A make code, as against the break code of the same key. -/
def isMake (code : BitVec 8) : Bool := code &&& 0x80 = 0

/-- The key of a make or break code. -/
def keyOf (code : BitVec 8) : Nat := (code &&& 0x7F).toNat

/-- The character of a make code, when it has a printable one. -/
def charOf (shift : Bool) (code : BitVec 8) : Option (BitVec 8) :=
  let c := ascii.getD (code.toNat * 2 + shift.toNat) 0
  if isprint c then some c else none

/-- The modifiers after a code that is not part of an 0xE0 sequence. -/
def Modifiers.next (m : Modifiers) (code : BitVec 8) : Modifiers :=
  if keyOf code = keyCtrlL then { m with ctrl := isMake code }
  else if keyOf code = keyShiftL then { m with shift := isMake code }
  else if keyOf code = keyAltL then { m with alt := isMake code }
  else m

def isModifier (code : BitVec 8) : Prop :=
  keyOf code = keyCtrlL ∨ keyOf code = keyShiftL ∨ keyOf code = keyAltL

instance (code : BitVec 8) : Decidable (isModifier code) :=
  inferInstanceAs (Decidable (_ ∨ _))

def Modifiers.emit (m : Modifiers) (code : BitVec 8) : Option (BitVec 8) :=
  if ¬isModifier code ∧ isMake code then charOf m.shift code else none

/-- One code: an 0xE0 and the code after it are dropped. -/
def Keys.step (k : Keys) (code : BitVec 8) : Keys × Option (BitVec 8) :=
  if k.pending then (⟨false, k.mods⟩, none)
  else if code = 0xE0 then (⟨true, k.mods⟩, none)
  else (⟨false, k.mods.next code⟩, k.mods.emit code)

/-- The whole stream, with the characters emitted. -/
def Keys.run : Keys → List (BitVec 8) → Keys × List (BitVec 8)
  | k, [] => (k, [])
  | k, code :: codes =>
    let r := (k.step code).1.run codes
    (r.1, (k.step code).2.toList ++ r.2)

/-- Nothing pending, no modifier down. -/
def Keys.idle : Keys := ⟨false, ⟨false, false, false⟩⟩

/-- kb_flag for a set of modifiers. -/
def Modifiers.flag (m : Modifiers) : BitVec 32 :=
  (if m.ctrl then kbFCtrl else 0) ||| (if m.alt then kbFAlt else 0) |||
    (if m.shift then kbFShift else 0)

/-! ## cook -/

variable {code : BitVec 8} {m : Modifiers}

theorem makeBreak_eq (code : BitVec 8) (kbFlag bit : BitVec 32) :
    makeBreak (code.setWidth 32) kbFlag bit =
      if isMake code then kbFlag ||| bit else kbFlag &&& ~~~bit := by
  have hbit : ∀ code : BitVec 8, code.setWidth 32 &&& 0x80 ≠ 0 ↔ isMake code = false := by
    decide +kernel
  unfold makeBreak
  by_cases h : isMake code = true
  · rw [if_neg ((hbit code).not.mpr (by simp [h])), if_pos h]
  · rw [if_pos ((hbit code).mpr (by simpa using h)), if_neg h]

theorem flag_ctrl (m : Modifiers) (make : Bool) : { m with ctrl := make }.flag =
    if make then m.flag ||| kbFCtrl else m.flag &&& ~~~kbFCtrl := by
  obtain ⟨ctrl, shift, alt⟩ := m
  cases ctrl <;> cases shift <;> cases alt <;> cases make <;> rfl

theorem flag_shift (m : Modifiers) (make : Bool) : { m with shift := make }.flag =
    if make then m.flag ||| kbFShift else m.flag &&& ~~~kbFShift := by
  obtain ⟨ctrl, shift, alt⟩ := m
  cases ctrl <;> cases shift <;> cases alt <;> cases make <;> rfl

theorem flag_alt (m : Modifiers) (make : Bool) : { m with alt := make }.flag =
    if make then m.flag ||| kbFAlt else m.flag &&& ~~~kbFAlt := by
  obtain ⟨ctrl, shift, alt⟩ := m
  cases ctrl <;> cases shift <;> cases alt <;> cases make <;> rfl

theorem flag_and_shift (m : Modifiers) :
    (if m.flag &&& kbFShift ≠ 0 then 1 else 0) = m.shift.toNat := by
  obtain ⟨ctrl, shift, alt⟩ := m
  cases ctrl <;> cases shift <;> cases alt <;> rfl

/-- The table has the three modifier keys at their own scan codes, and nowhere else. -/
theorem keycodeOf_modifier (code : BitVec 8) :
    (keycodeOf code = keyCtrlL ↔ keyOf code = keyCtrlL) ∧
      (keycodeOf code = keyShiftL ↔ keyOf code = keyShiftL) ∧
      (keycodeOf code = keyAltL ↔ keyOf code = keyAltL) := by
  revert code
  decide +kernel

theorem cook_assert (code : BitVec 8) :
    code.setWidth 32 &&& 0xffffff00 = 0 ∧ ([] : List (BitVec 8)).length = 0 := by
  revert code
  decide +kernel

theorem cook_prefix (kbFlag : BitVec 32) :
    cook 0xE0 .csNormal kbFlag [] = .ok (.csE0, kbFlag, []) := rfl

theorem cook_extended (code : BitVec 8) (kbFlag : BitVec 32) :
    cook (code.setWidth 32) .csE0 kbFlag [] = .ok (.csDone, kbFlag, []) := by
  simp only [cook, assert_pos (cook_assert code), ok_bind, pure_eq_ok]

/-- A code outside an 0xE0 sequence is cooked in one step, as the automaton takes it. -/
theorem cook_normal (hcode : code ≠ 0xE0) : cook (code.setWidth 32) .csNormal m.flag [] =
    .ok (.csDone, (m.next code).flag, (m.emit code).toList) := by
  have hne : ∀ code : BitVec 8, code ≠ 0xE0 → code.setWidth 32 ≠ 0xE0#32 := by decide +kernel
  have hmake : ∀ code : BitVec 8,
      (¬code.setWidth 32 &&& 0x80 ≠ 0 ↔ isMake code = true) ∧
        (isMake code = true → code &&& 0x80 = 0) := by
    decide +kernel
  obtain ⟨hctrl, hshift, halt⟩ := keycodeOf_modifier code
  have hfirst : ¬code.setWidth 32 = 0xE0 := hne code hcode
  simp only [cook, assert_pos (cook_assert code), ok_bind, hfirst, if_false,
    kbKeycode_eq, makeBreak_eq, hctrl, hshift, halt, (hmake code).1]
  unfold Modifiers.next Modifiers.emit
  by_cases h₁ : keyOf code = keyCtrlL
  · have hmod : ¬(¬isModifier code ∧ isMake code = true) := fun h => h.1 (.inl h₁)
    simp only [if_pos h₁, if_neg hmod, flag_ctrl]
    rfl
  by_cases h₂ : keyOf code = keyShiftL
  · have hmod : ¬(¬isModifier code ∧ isMake code = true) := fun h => h.1 (.inr (.inl h₂))
    simp only [if_neg h₁, if_pos h₂, if_neg hmod, flag_shift]
    rfl
  by_cases h₃ : keyOf code = keyAltL
  · have hmod : ¬(¬isModifier code ∧ isMake code = true) := fun h => h.1 (.inr (.inr h₃))
    simp only [if_neg h₁, if_neg h₂, if_pos h₃, if_neg hmod, flag_alt]
    rfl
  have hkey : ¬isModifier code := fun h => h.elim h₁ fun h => h.elim h₂ h₃
  by_cases h₄ : isMake code = true
  · simp only [if_neg h₁, if_neg h₂, if_neg h₃, if_pos h₄, if_pos (And.intro hkey h₄),
      kbAscii_eq ((hmake code).2 h₄), flag_and_shift, ok_bind, charOf]
    split_ifs <;> rfl
  · have hbreak : ¬(¬isModifier code ∧ isMake code = true) := fun h => h₄ h.2
    simp only [if_neg h₁, if_neg h₂, if_neg h₃, if_neg h₄, if_neg hbreak]
    rfl

/-! ## tty_cook -/

variable {tty : Tty} {fuel : Nat}

/-- `secondary` has been emptied, and read_q holds `codes`. -/
structure Waiting (tty : Tty) (codes : List (BitVec 32)) : Prop where
  readQ : tty.readQ.WellFormed
  contents : tty.readQ.contents = codes
  secondary : tty.secondary.WellFormed
  empty : tty.secondary.contents = []

theorem Waiting.secondary_count {codes : List (BitVec 32)} (h : Waiting tty codes) :
    tty.secondary.count = 0 :=
  queueEmpty_iff.mpr h.empty

theorem Waiting.readQ_count {codes : List (BitVec 32)} (h : Waiting tty codes) :
    tty.readQ.count = codes.length := by
  rw [← length_contents, h.contents]

theorem Waiting.goes_on {c : BitVec 32} {codes : List (BitVec 32)} (h : Waiting tty (c :: codes)) :
    ¬tty.secondary.queueFull ∧ ¬tty.readQ.queueEmpty := by
  constructor
  · intro hfull
    have hcount : tty.secondary.count = queueBufSz := hfull
    rw [h.secondary_count] at hcount
    cases hcount
  · rw [queueEmpty_iff, h.contents]
    exact List.cons_ne_nil _ _

theorem cookLoop_stop (h : tty.readQ.contents = []) : cookLoop (fuel + 1) tty = .ok tty := by
  have hstop : ¬(¬tty.secondary.queueFull ∧ ¬tty.readQ.queueEmpty) :=
    fun hgo => hgo.2 (queueEmpty_iff.mpr h)
  rw [cookLoop, if_neg hstop]
  rfl

/-- The code after an 0xE0: both are taken from read_q and nothing else happens. -/
theorem ttyCook_extended (code : BitVec 8) (h : Waiting tty [0xE0, code.setWidth 32]) :
    ∃ q, ttyCook tty = .ok { tty with readQ := q } ∧ Waiting { tty with readQ := q } [] := by
  obtain ⟨q₁, hdeq₁, hq₁, hcontents₁, -⟩ := h.readQ.queueDeq h.contents
  obtain ⟨q₂, hdeq₂, hq₂, hcontents₂, -⟩ := hq₁.queueDeq hcontents₁
  have hmore : ¬q₁.queueEmpty := by
    rw [queueEmpty_iff, hcontents₁]
    exact List.cons_ne_nil _ _
  refine ⟨q₂, ?_, hq₂, hcontents₂, h.secondary, h.empty⟩
  have hlen₁ : q₁.count = 1 := by rw [← length_contents, hcontents₁]; rfl
  have hroom : ¬(queueBufSz : Int) - tty.secondary.count < ([] : List (BitVec 8)).length := by
    rw [h.secondary_count]
    decide
  rw [ttyCook, h.readQ_count]
  show cookLoop (2 + 1) tty = _
  rw [cookLoop, if_pos h.goes_on]
  simp only [hdeq₁, ok_bind, hlen₁, cookSequence, cook_prefix, cook_extended, hdeq₂,
    if_neg hmore, reduceCtorEq, if_false, if_true, pure_eq_ok, hroom, copyResult]
  exact cookLoop_stop hcontents₂

/-- An 0xE0 with nothing after it is put back. -/
theorem ttyCook_extends (h : Waiting tty [0xE0]) : ttyCook tty = .ok tty := by
  obtain ⟨q, hdeq, hq, hcontents, hrestore⟩ := h.readQ.queueDeq h.contents
  have hnone : q.queueEmpty := queueEmpty_iff.mpr hcontents
  rw [ttyCook, h.readQ_count]
  show cookLoop (1 + 1) tty = _
  rw [cookLoop, if_pos h.goes_on]
  simp only [hdeq, ok_bind, cookSequence, cook_prefix, if_pos hnone, reduceCtorEq, if_false,
    pure_eq_ok, Tty.restore, hrestore]

/-- Any other code is cooked at once; its character, if any, goes to `secondary`. -/
theorem ttyCook_normal (hcode : code ≠ 0xE0) (h : Waiting tty [code.setWidth 32])
    (hflag : tty.kbFlag = m.flag) : ∃ q s, ttyCook tty = .ok ⟨(m.next code).flag, q, s⟩ ∧
      q.WellFormed ∧ q.contents = [] ∧ s.WellFormed ∧
      s.contents = (m.emit code).toList.map (BitVec.signExtend 32) := by
  obtain ⟨q, hdeq, hq, hcontents, -⟩ := h.readQ.queueDeq h.contents
  have hroom : ¬(queueBufSz : Int) - tty.secondary.count < (m.emit code).toList.length := by
    rw [h.secondary_count]
    cases m.emit code <;> simp [queueBufSz]
  have hcopy : ∃ s, copyResult (m.emit code).toList tty.secondary = .ok s ∧ s.WellFormed ∧
      s.contents = (m.emit code).toList.map (BitVec.signExtend 32) := by
    cases m.emit code with
    | none => exact ⟨tty.secondary, rfl, h.secondary, h.empty⟩
    | some c =>
      obtain ⟨s, henq, hs, hcontents⟩ := h.secondary.queueEnq
        (by rw [h.secondary_count]; decide) (c.signExtend 32)
      refine ⟨s, ?_, hs, by rw [hcontents, h.empty]; rfl⟩
      simp only [Option.toList_some, copyResult, henq, ok_bind, pure_eq_ok]
  obtain ⟨s, hcopy, hs, hsecondary⟩ := hcopy
  refine ⟨q, s, ?_, hq, hcontents, hs, hsecondary⟩
  rw [ttyCook, h.readQ_count]
  show cookLoop (1 + 1) tty = _
  rw [cookLoop, if_pos h.goes_on]
  simp only [hdeq, ok_bind, cookSequence, hflag, cook_normal hcode, if_true, pure_eq_ok, hroom,
    if_false, hcopy]
  exact cookLoop_stop hcontents

/-! ## The interrupt -/

/-- The handler takes everything out of `secondary`, in order. -/
theorem drain_eq (chars : List (BitVec 8)) (s : TtyQueue) (scrolled : List Int)
    (hs : s.WellFormed) (hcontents : s.contents = chars.map (BitVec.signExtend 32)) :
    ∃ s' scrolled', drain (chars.length + 1) s scrolled = .ok (chars, s', scrolled') ∧
      s'.WellFormed ∧ s'.contents = [] := by
  have hchar : ∀ c : BitVec 8, (c.signExtend 32).setWidth 8 = c := by decide +kernel
  induction chars generalizing s scrolled with
  | nil =>
    have hempty : s.queueEmpty := queueEmpty_iff.mpr hcontents
    refine ⟨s, scrolled, ?_, hs, hcontents⟩
    simp only [drain, hempty, not_true_eq_false, if_false, pure_eq_ok]
  | cons c chars ih =>
    obtain ⟨s₁, hdeq, hs₁, hcontents₁, -⟩ := hs.queueDeq hcontents
    have hmore : ¬s.queueEmpty := by
      rw [queueEmpty_iff, hcontents]
      exact List.cons_ne_nil _ _
    obtain ⟨s', scrolled', hdrain, hs', hempty⟩ := ih s₁ (scroll c scrolled) hs₁ hcontents₁
    refine ⟨s', scrolled', ?_, hs', hempty⟩
    rw [List.length_cons, drain, if_pos hmore]
    simp only [hdeq, ok_bind, hchar, hdrain, pure_eq_ok]

/-- Between interrupts the terminal is where the automaton is. -/
structure Shows (io : Console) (k : Keys) : Prop where
  current : io.currentTty = 0
  flag : (io.ttyTable 0).kbFlag = k.mods.flag
  waiting : Waiting (io.ttyTable 0) (if k.pending then [0xE0] else [])

/-- The handler once tty_cook has left `chars` in `secondary`. -/
theorem interrupt_eq {io : Console} {q : TtyQueue} {chars : List (BitVec 8)} {k : Keys}
    (hcurrent : io.currentTty = 0) (hfull : ¬(io.ttyTable 0).readQ.queueFull)
    (henq : (io.ttyTable 0).readQ.queueEnq (code.setWidth 32) = .ok q)
    (hcook : ttyCook { io.ttyTable 0 with readQ := q } = .ok tty)
    (hflag : tty.kbFlag = k.mods.flag) (hq : tty.readQ.WellFormed)
    (hwaiting : tty.readQ.contents = if k.pending then [0xE0] else [])
    (hs : tty.secondary.WellFormed)
    (hchars : tty.secondary.contents = chars.map (BitVec.signExtend 32)) :
    ∃ io', onKeyboardInterrupt code io = .ok (chars, io') ∧ Shows io' k := by
  obtain ⟨s, scrolled, hdrain, hs', hempty⟩ :=
    drain_eq chars tty.secondary io.scrolled hs hchars
  have hcount : tty.secondary.count = chars.length := by
    rw [← length_contents, hchars, List.length_map]
  rw [← hcount] at hdrain
  refine ⟨{ io with
    ttyTable := Function.update io.ttyTable 0 { tty with secondary := s }
    scrolled := scrolled }, ?_, hcurrent, ?_, ?_⟩
  · have haccess : (0 : Nat) < 1 := Nat.zero_lt_one
    simp only [onKeyboardInterrupt, hcurrent, access_pos haccess, ok_bind, if_pos hfull, henq,
      hcook, hdrain, pure_eq_ok]
  · exact hflag
  · exact ⟨hq, hwaiting, hs', hempty⟩

/-- One code takes the terminal where it takes the automaton. -/
theorem Shows.interrupt {io : Console} {k : Keys} (h : Shows io k) (code : BitVec 8) :
    ∃ io', onKeyboardInterrupt code io = .ok ((k.step code).2.toList, io') ∧
      Shows io' (k.step code).1 := by
  have hcount := h.waiting.readQ_count
  have hroom : (io.ttyTable 0).readQ.count < queueBufSz := by
    rw [hcount]
    split_ifs <;> decide
  have hfull : ¬(io.ttyTable 0).readQ.queueFull := hroom.ne
  obtain ⟨q, henq, hq, hcontents⟩ := h.waiting.readQ.queueEnq hroom (code.setWidth 32)
  rw [h.waiting.contents] at hcontents
  have hwaiting : Waiting { io.ttyTable 0 with readQ := q }
      ((if k.pending then [0xE0] else []) ++ [code.setWidth 32]) :=
    ⟨hq, hcontents, h.waiting.secondary, h.waiting.empty⟩
  unfold Keys.step
  by_cases hpending : k.pending = true
  · rw [if_pos hpending] at hwaiting ⊢
    obtain ⟨q', hcook, hdone⟩ := ttyCook_extended code hwaiting
    exact interrupt_eq h.current hfull henq hcook h.flag hdone.readQ hdone.contents
      hdone.secondary hdone.empty
  · rw [if_neg hpending] at hwaiting ⊢
    by_cases hcode : code = 0xE0
    · subst hcode
      rw [if_pos rfl]
      exact interrupt_eq h.current hfull henq (ttyCook_extends hwaiting) h.flag hq
        hwaiting.contents hwaiting.secondary hwaiting.empty
    · rw [if_neg hcode]
      obtain ⟨q', s, hcook, hq', hempty, hs, hchars⟩ := ttyCook_normal hcode hwaiting h.flag
      exact interrupt_eq h.current hfull henq hcook rfl hq' hempty hs hchars

/-! ## The stream -/

theorem Shows.deliver {io : Console} {k : Keys} (h : Shows io k) (codes : List (BitVec 8)) :
    ∃ io', Io.deliver codes io = .ok ((k.run codes).2, io') ∧ Shows io' (k.run codes).1 := by
  induction codes generalizing io k with
  | nil => exact ⟨io, rfl, h⟩
  | cons code codes ih =>
    obtain ⟨io₁, hcode, h₁⟩ := h.interrupt code
    obtain ⟨io₂, hcodes, h₂⟩ := ih h₁
    refine ⟨io₂, ?_, h₂⟩
    simp only [Io.deliver, hcode, hcodes, ok_bind, pure_eq_ok]
    rfl

theorem booted_shows : Shows (ioInit booted) .idle :=
  ⟨rfl, rfl, queueInit_wellFormed _, rfl, queueInit_wellFormed _, rfl⟩

/-- Every stream of scan codes is handled without a stop; the characters taken, kb_flag and
what is left in the two queues are those of the automaton. -/
theorem keyboard_pipeline (codes : List (BitVec 8)) :
    ∃ io, deliver codes (ioInit booted) = .ok ((Keys.idle.run codes).2, io) ∧
      (io.ttyTable 0).kbFlag = (Keys.idle.run codes).1.mods.flag ∧
      (io.ttyTable 0).secondary.contents = [] ∧
      (io.ttyTable 0).readQ.contents =
        if (Keys.idle.run codes).1.pending then [0xE0] else [] := by
  obtain ⟨io, hdeliver, hshows⟩ := booted_shows.deliver codes
  exact ⟨io, hdeliver, hshows.flag, hshows.waiting.empty, hshows.waiting.contents⟩

/-- SHIFT_L down, `a`, an arrow key, SHIFT_L up, `a`, and an 0xE0 left hanging. -/
example : Keys.idle.run [0x2A, 0x1E, 0xE0, 0x48, 0xAA, 0x1E, 0xE0] =
    (⟨true, ⟨false, false, false⟩⟩, [0x41, 0x61]) := by decide

end RxdOs.Kernel.KeyStream
