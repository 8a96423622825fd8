/- RxdOs/Libk/Printk
   source: lib/printk.asm, boot/head.asm (the video segment)
   digest: printk keeps the cursor twice, as an offset and as a row and a column; for which strings
   the two agree all along, and a string may be printed in pieces. -/

import RxdOs.Libk.Str

set_option autoImplicit false
set_option relaxedAutoImplicit false

namespace RxdOs.Libk.Printk

open RxdOs.Base.Assert RxdOs.Libk.Str

/-- The video segment, the cursor saved at 0x90000, and the first cell shown. -/
structure Screen where
  video : Nat → UInt8
  row : Fin 256
  col : Fin 80
  origin : Nat

/-- Zeros all over, and the cursor in the corner. -/
def Screen.blank : Screen := ⟨fun _ => 0, 0, 0, 0⟩

/-- `mov al, 80`, `mul dh`, `add al, dl`, `adc ah, 0`, `shl ax, 1`; ax does not overflow. -/
def offset (row : Fin 256) (col : Fin 80) : Nat := 2 * (80 * row + col)

/-- The registers of the loop, dh and dl as row and column. -/
structure Regs where
  eax : Nat
  row : Fin 256
  col : Fin 80
  video : Nat → UInt8

/-- `.next` -/
def Regs.next (r : Regs) : Regs :=
  if h : r.col.val + 1 < 80 then { r with col := ⟨r.col.val + 1, h⟩ }
  else { r with col := 0, row := r.row + 1 }

/-- `.print_cr` -/
def Regs.printCr (r : Regs) : Regs := Regs.next { r with col := 0, eax := offset r.row 0 }

/-- One character; the limit of the video segment is 0xffff. -/
def printChar (c : UInt8) (r : Regs) : Kernel Regs :=
  if c = 0x09 then pure (Regs.next { r with eax := (r.eax / 16 * 16 + 16) % 2 ^ 32 })
  else if c = 0x0a then pure (Regs.printCr { r with row := r.row + 1 })
  else if c = 0x0d then pure r.printCr
  else do
    access (r.eax ≤ 0xffff) "mov [gs:eax], cl"
    pure (Regs.next { r with
      video := Function.update r.video r.eax c
      eax := (r.eax + 2) % 2 ^ 32 })

def loop : List UInt8 → Regs → Kernel Regs
  | [], r => pure r
  | c :: s, r => do
    let r ← printChar c r
    loop s r

/-- auto_scroll; `cmp dh, 24` with `jl` compares signed bytes. -/
def autoScroll (row : Fin 256) (origin : Nat) : Nat :=
  if row.val < 24 ∨ 128 ≤ row.val then origin else 80 * (row.val - 23)

def start (scr : Screen) : Regs := ⟨offset scr.row scr.col, scr.row, scr.col, scr.video⟩

def printk (s : Text) (scr : Screen) : Kernel Screen := do
  let r ← loop s.chars (start scr)
  pure ⟨r.video, r.row, r.col, autoScroll r.row scr.origin⟩

/-! ## The two cursors -/

/-- The offset is that of the row and the column. -/
def Regs.Agrees (r : Regs) : Prop := r.eax = offset r.row r.col

/-- The cell of the row and the column. -/
def Regs.pos (r : Regs) : Nat := 80 * r.row + r.col

/-- A character that moves both cursors from cell `p` to the next one. -/
def Good (p : Nat) (c : UInt8) : Prop :=
  (c ≠ 0x0a ∧ c ≠ 0x0d) ∧ (c = 0x09 → p % 8 = 7) ∧ p + 1 < 80 * 256

section Step

variable {r r' : Regs} {c : UInt8} {s t : List UInt8}

theorem pos_lt (r : Regs) : r.pos < 80 * 256 := by
  have hrow := r.row.isLt
  have hcol := r.col.isLt
  rw [Regs.pos]
  omega

theorem agrees_iff : r.Agrees ↔ r.eax = 2 * r.pos := Iff.rfl

@[simp] theorem next_eax (r : Regs) : r.next.eax = r.eax := by
  unfold Regs.next
  split_ifs <;> rfl

/-- The cell after the last one is the first. -/
theorem next_pos (r : Regs) : r.next.pos = (r.pos + 1) % (80 * 256) := by
  have hrow := r.row.isLt
  have hcol := r.col.isLt
  unfold Regs.next
  split_ifs with h
  · simp only [Regs.pos]
    omega
  · have hnext : (r.row + 1).val = (r.row.val + 1) % 256 := by
      rw [Fin.val_add]
      rfl
    simp only [Regs.pos, hnext, Fin.val_zero]
    omega

theorem printCr_disagrees (r : Regs) : ¬r.printCr.Agrees := by
  have hrow := r.row.isLt
  rw [agrees_iff, Regs.printCr, next_eax, next_pos]
  simp only [Regs.pos, offset, Fin.val_zero]
  omega

/-- `.next` after a move of the offset to `e`. -/
theorem next_agrees_iff (r : Regs) (e : Nat) (video : Nat → UInt8) :
    (Regs.next { r with eax := e, video := video }).Agrees ↔
      e = 2 * ((r.pos + 1) % (80 * 256)) := by
  rw [agrees_iff, next_eax, next_pos]
  rfl

theorem tab_agrees_iff {p : Nat} (hp : p < 80 * 256) :
    (2 * p / 16 * 16 + 16) % 2 ^ 32 = 2 * ((p + 1) % (80 * 256)) ↔ Good p 0x09 := by
  have hchar : (0x09 : UInt8) ≠ 0x0a ∧ (0x09 : UInt8) ≠ 0x0d := by decide
  have hsmall : 2 * p / 16 * 16 + 16 < 2 ^ 32 := by omega
  rw [Nat.mod_eq_of_lt hsmall, Good, and_iff_right hchar, imp_iff_right rfl]
  by_cases hlast : p + 1 < 80 * 256
  · rw [Nat.mod_eq_of_lt hlast, and_iff_left hlast]
    omega
  · obtain rfl : p = 20479 := by omega
    decide

theorem plain_agrees_iff {p : Nat} (hp : p < 80 * 256) :
    (2 * p + 2) % 2 ^ 32 = 2 * ((p + 1) % (80 * 256)) ↔ p + 1 < 80 * 256 := by
  have hsmall : 2 * p + 2 < 2 ^ 32 := by omega
  rw [Nat.mod_eq_of_lt hsmall]
  by_cases hlast : p + 1 < 80 * 256
  · rw [Nat.mod_eq_of_lt hlast]
    exact iff_of_true rfl hlast
  · obtain rfl : p = 20479 := by omega
    decide

/-- From agreeing cursors every character can be printed, and the cursors agree afterwards exactly
when it is a good one. -/
theorem printChar_step (hr : r.Agrees) (c : UInt8) :
    ∃ r', printChar c r = .ok r' ∧ (r'.Agrees ↔ Good r.pos c) := by
  have hpos := pos_lt r
  rw [agrees_iff] at hr
  unfold printChar
  split_ifs with htab hnl hcr
  · refine ⟨_, rfl, ?_⟩
    rw [htab, next_agrees_iff, hr]
    exact tab_agrees_iff hpos
  · exact ⟨_, rfl, iff_of_false (printCr_disagrees _) fun h => h.1.1 hnl⟩
  · exact ⟨_, rfl, iff_of_false (printCr_disagrees _) fun h => h.1.2 hcr⟩
  · rw [access_pos (by omega), ok_bind]
    refine ⟨_, rfl, ?_⟩
    rw [next_agrees_iff, hr, plain_agrees_iff hpos]
    exact ⟨fun h => ⟨⟨hnl, hcr⟩, fun h9 => absurd h9 htab, h⟩, fun h => h.2.2⟩

/-- A good character moves to the next cell. -/
theorem printChar_pos (hgood : Good r.pos c) (h : printChar c r = .ok r') :
    r'.pos = r.pos + 1 := by
  have hnext : (r.pos + 1) % (80 * 256) = r.pos + 1 := Nat.mod_eq_of_lt hgood.2.2
  unfold printChar at h
  split_ifs at h with htab hnl hcr
  · obtain rfl := Except.ok.inj h
    rw [next_pos]
    exact hnext
  · exact absurd hnl hgood.1.1
  · exact absurd hcr hgood.1.2
  · simp only [bind_eq_ok, pure_eq_ok, Except.ok.injEq] at h
    obtain ⟨_, -, rfl⟩ := h
    rw [next_pos]
    exact hnext

theorem loop_append (s t : List UInt8) (r : Regs) : loop (s ++ t) r = loop s r >>= loop t := by
  induction s generalizing r with
  | nil => rfl
  | cons c s ih =>
    simp only [List.cons_append, loop, ih]
    cases printChar c r <;> rfl

end Step

/-! ## Strings -/

/-- From cell `p` on: no newline, no carriage return, tabs only where they move by one column, and
rows below 256. -/
def Straight (p : Nat) (w : List UInt8) : Prop :=
  (∀ c ∈ w, c ≠ 0x0a ∧ c ≠ 0x0d) ∧ (∀ i (h : i < w.length), w[i] = 0x09 → (p + i) % 8 = 7) ∧
    p + w.length < 80 * 256

/-- The cursors agree whenever the loop starts on a character, and at the end. -/
def TracksFrom (r : Regs) (w : List UInt8) : Prop :=
  ∀ s, s <+: w → ∀ r', loop s r = .ok r' → r'.Agrees

section Strings

variable {r r' : Regs} {c : UInt8} {w : List UInt8} {p : Nat}

theorem straight_cons : Straight p (c :: w) ↔ Good p c ∧ Straight (p + 1) w := by
  have hshift : ∀ i, p + 1 + i = p + (i + 1) := fun i => by omega
  constructor
  · rintro ⟨hlines, htabs, hlen⟩
    rw [List.length_cons] at hlen
    refine ⟨⟨hlines c (List.mem_cons_self ..), htabs 0 (Nat.succ_pos _), by omega⟩,
      fun d hd => hlines d (List.mem_cons_of_mem c hd), fun i hi h9 => ?_, by omega⟩
    rw [hshift]
    exact htabs (i + 1) (Nat.succ_lt_succ hi) h9
  · rintro ⟨⟨hline, htab, -⟩, hlines, htabs, hlen⟩
    refine ⟨List.forall_mem_cons.mpr ⟨hline, hlines⟩, fun i hi h9 => ?_, ?_⟩
    · cases i with
      | zero => exact htab h9
      | succ i =>
        rw [← hshift]
        exact htabs i (Nat.lt_of_succ_lt_succ hi) h9
    · rw [List.length_cons]
      omega

/-- The cursors agree all along a straight string, and along no other. -/
theorem tracksFrom_iff (hr : r.Agrees) : TracksFrom r w ↔ Straight r.pos w := by
  induction w generalizing r with
  | nil =>
    refine iff_of_true (fun s hs r' h => ?_) ⟨by simp, by simp, pos_lt r⟩
    rw [List.prefix_nil.mp hs] at h
    obtain rfl := Except.ok.inj h
    exact hr
  | cons c w ih =>
    obtain ⟨r', hstep, hagrees⟩ := printChar_step hr c
    rw [straight_cons, ← hagrees]
    constructor
    · intro h
      have hr' : r'.Agrees := by
        refine h [c] ⟨w, rfl⟩ r' ?_
        rw [loop, hstep]
        rfl
      refine ⟨hr', ?_⟩
      rw [← printChar_pos (hagrees.mp hr') hstep]
      refine (ih hr').mp fun s hs r'' hrun => h (c :: s) ?_ r'' ?_
      · exact List.cons_prefix_cons.mpr ⟨rfl, hs⟩
      · rw [loop, hstep]
        exact hrun
    · rintro ⟨hr', hrest⟩ s hs r'' hrun
      rw [← printChar_pos (hagrees.mp hr') hstep] at hrest
      cases s with
      | nil =>
        obtain rfl := Except.ok.inj hrun
        exact hr
      | cons d s =>
        obtain ⟨rfl, hpre⟩ := List.cons_prefix_cons.mp hs
        rw [loop, hstep] at hrun
        exact (ih hr').mpr hrest s hpre r'' hrun

/-- A straight string is printed to its end. -/
theorem loop_straight (hr : r.Agrees) (h : Straight r.pos w) : ∃ r', loop w r = .ok r' := by
  induction w generalizing r with
  | nil => exact ⟨r, rfl⟩
  | cons c w ih =>
    obtain ⟨r', hstep, hagrees⟩ := printChar_step hr c
    obtain ⟨hgood, hrest⟩ := straight_cons.mp h
    rw [← printChar_pos hgood hstep] at hrest
    rw [loop, hstep]
    exact ih (hagrees.mpr hgood) hrest

end Strings

/-! ## Pieces -/

/-- What shows, and where printing goes on. -/
def seen (scr : Screen) : (Nat → UInt8) × Fin 256 × Fin 80 := (scr.video, scr.row, scr.col)

/-- At every iteration of a call from this cursor the offset is twice 80 times the row plus the
column. -/
def Tracks (row : Fin 256) (col : Fin 80) (w : Text) : Prop :=
  ∀ scr, scr.row = row → scr.col = col → TracksFrom (start scr) w.chars

/-- A call may be split after any beginning of the string, whatever comes then. -/
def Homomorphic (row : Fin 256) (col : Fin 80) (w : Text) : Prop :=
  ∀ scr, scr.row = row → scr.col = col → ∀ s t : Text, s.chars <+: w.chars →
    (printk s scr >>= printk t).map seen = (printk (s.append t) scr).map seen

section Pieces

variable {scr : Screen} {row : Fin 256} {col : Fin 80} {w : Text}

theorem start_agrees (scr : Screen) : (start scr).Agrees := rfl

/-- After a piece whose end agrees, a call with the rest goes on with the same registers. -/
theorem printk_append {s t : Text} {r : Regs} (hs : loop s.chars (start scr) = .ok r)
    (hr : r.Agrees) :
    (printk s scr >>= printk t).map seen = (printk (s.append t) scr).map seen := by
  have hresume : start ⟨r.video, r.row, r.col, autoScroll r.row scr.origin⟩ = r := by
    rw [start, ← show r.eax = offset r.row r.col from hr]
  rw [printk, hs, ok_bind]
  simp only [pure_eq_ok, ok_bind]
  rw [printk, printk, Text.append, loop_append, hs, ok_bind, hresume]
  cases loop t.chars r <;> rfl

/-- One plain character. -/
def letter (c : UInt8) (h : c ≠ 0) : Text := ⟨[c], by simpa using h⟩

theorem loop_letter {c : UInt8} (hplain : c ≠ 0x09 ∧ c ≠ 0x0a ∧ c ≠ 0x0d) (r : Regs) :
    loop [c] r = (do
      access (r.eax ≤ 0xffff) "mov [gs:eax], cl"
      pure (Regs.next { r with
        video := Function.update r.video r.eax c
        eax := (r.eax + 2) % 2 ^ 32 })) := by
  rw [loop, printChar, if_neg hplain.1, if_neg hplain.2.1, if_neg hplain.2.2]
  cases access (r.eax ≤ 0xffff) "mov [gs:eax], cl" <;> rfl

theorem next_video (r : Regs) : r.next.video = r.video := by
  unfold Regs.next
  split_ifs <;> rfl

theorem loop_letter_video {c : UInt8} (hplain : c ≠ 0x09 ∧ c ≠ 0x0a ∧ c ≠ 0x0d) {r r' : Regs}
    (h : loop [c] r = .ok r') : r'.video = Function.update r.video r.eax c := by
  simp only [loop_letter hplain, bind_eq_ok, pure_eq_ok, Except.ok.injEq] at h
  obtain ⟨_, -, rfl⟩ := h
  exact next_video _

/-- A plain character shows where a piece has left the offset. -/
theorem printk_letter {s : Text} {r : Regs} {c : UInt8} (hc : c ≠ 0)
    (hplain : c ≠ 0x09 ∧ c ≠ 0x0a ∧ c ≠ 0x0d) (hs : loop s.chars (start scr) = .ok r)
    (hsplit : (printk s scr >>= printk (letter c hc)).map seen =
      (printk (s.append (letter c hc)) scr).map seen) (hother : r.video (offset r.row r.col) ≠ c) :
    r.Agrees := by
  generalize hscr' : (⟨r.video, r.row, r.col, autoScroll r.row scr.origin⟩ : Screen) = scr'
  have hfirst : printk s scr = .ok scr' := by
    rw [printk, hs, ok_bind, ← hscr']
    rfl
  have hstart : (start scr').video = r.video ∧ (start scr').eax = offset r.row r.col := by
    rw [← hscr']
    exact ⟨rfl, rfl⟩
  obtain ⟨r₁, hr₁, -⟩ := printChar_step (start_agrees scr') c
  have hone : loop [c] (start scr') = .ok r₁ := by
    rw [loop, hr₁]
    rfl
  rw [hfirst, ok_bind, printk, printk, Text.append, loop_append, hs, ok_bind, letter, hone,
    ok_bind] at hsplit
  cases htwo : loop [c] r with
  | error e =>
    rw [htwo] at hsplit
    cases hsplit
  | ok r₂ =>
    rw [htwo] at hsplit
    have hvideo : r₁.video = r₂.video := congrArg Prod.fst (Except.ok.inj hsplit)
    rw [loop_letter_video hplain hone, loop_letter_video hplain htwo, hstart.1, hstart.2] at hvideo
    have hcell := congrFun hvideo (offset r.row r.col)
    by_contra hne
    rw [Function.update_self, Function.update_of_ne (Ne.symm hne)] at hcell
    exact hother hcell.symm

/-- A call may be split anywhere exactly when the two cursors agree all along. -/
theorem homomorphic_iff (row : Fin 256) (col : Fin 80) (w : Text) :
    Homomorphic row col w ↔ Tracks row col w := by
  constructor
  · intro h scr hrow hcol s hs r hrun
    have hnoNul : ∀ c ∈ s, c ≠ 0 := fun c hc => w.noNul c (hs.subset hc)
    have hsplit := fun t => h scr hrow hcol ⟨s, hnoNul⟩ t hs
    by_cases ha : r.video (offset r.row r.col) = 97
    · have hb : r.video (offset r.row r.col) ≠ 98 := by
        rw [ha]
        decide
      exact printk_letter (by decide) (by decide) hrun (hsplit (letter 98 (by decide))) hb
    · exact printk_letter (by decide) (by decide) hrun (hsplit (letter 97 (by decide))) ha
  · intro h scr hrow hcol s t hs
    have htracks := h scr hrow hcol
    obtain ⟨rest, hrest⟩ := hs
    obtain ⟨r', hrun⟩ := loop_straight (start_agrees scr)
      ((tracksFrom_iff (start_agrees scr)).mp htracks)
    rw [← hrest, loop_append, bind_eq_ok] at hrun
    obtain ⟨r, hpiece, -⟩ := hrun
    exact printk_append hpiece (htracks s.chars ⟨rest, hrest⟩ r hpiece)

end Pieces

/-- printk keeps its two cursors together, and may be called on the pieces of a string, exactly for
the strings without newlines and carriage returns whose tabs stand in the last column before a tab
stop. -/
theorem printk_pieces_iff (row : Fin 256) (col : Fin 80) (w : Text) :
    (Tracks row col w ↔ Straight (80 * row + col) w.chars) ∧
      (Homomorphic row col w ↔ Straight (80 * row + col) w.chars) := by
  have htracks : Tracks row col w ↔ Straight (80 * row + col) w.chars := by
    constructor
    · intro h
      exact (tracksFrom_iff (start_agrees ⟨fun _ => 0, row, col, 0⟩)).mp (h _ rfl rfl)
    · rintro h scr rfl rfl
      exact (tracksFrom_iff (start_agrees scr)).mpr h
  exact ⟨htracks, (homomorphic_iff row col w).trans htracks⟩

/-- "\n" then "x" on a blank screen: in one call the x goes to column 0 of the second row, in two
calls to column 1, and at the end of the first call the offset lags behind the column. -/
theorem newline_lags : ∃ scr s t v v', scr.row = 0 ∧ scr.col = 0 ∧
    (printk s scr >>= printk t).map seen = .ok v ∧
    (printk (s.append t) scr).map seen = .ok v' ∧ v.1 160 = 0 ∧ v'.1 160 = 120 ∧
    ∃ r, loop s.chars (start scr) = .ok r ∧ ¬r.Agrees := by
  refine ⟨⟨fun _ => 0, 0, 0, 0⟩, letter 0x0a (by decide), letter 120 (by decide), _, _, rfl, rfl,
    rfl, rfl, rfl, rfl, _, rfl, ?_⟩
  exact printCr_disagrees _

end RxdOs.Libk.Printk
