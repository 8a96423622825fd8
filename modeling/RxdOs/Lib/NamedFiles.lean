/- RxdOs/Lib/NamedFiles
   digest: Named files as sequences of values, read and written through open descriptions that
   have a position; values stay where they are along every run that does not write over them. -/

import Mathlib.Data.List.GetD
import RxdOs.Lib.Execution

set_option autoImplicit false
set_option relaxedAutoImplicit false

namespace RxdOs.Lib.NamedFiles

open RxdOs.Lib.Execution

variable {Name Obj Fd α : Type}

/-! ## Sequences of values -/

section Sequences

/-- The values from `pos` on, `count` of them as far as there are so many. -/
def slice (l : List α) (pos count : Nat) : List α := (l.drop pos).take count

/-- `data` laid over `l` from `pos` on; a gap before it is filled.  No data changes nothing. -/
def splice (fill : α) (l : List α) (pos : Nat) (data : List α) : List α :=
  if data = [] then l
  else l.take pos ++ List.replicate (pos - l.length) fill ++ data ++ l.drop (pos + data.length)

variable {fill : α} {l data : List α} {pos : Nat}

theorem length_slice (l : List α) (pos count : Nat) :
    (slice l pos count).length = min count (l.length - pos) := by
  rw [slice, List.length_take, List.length_drop]

theorem length_splice (hne : data ≠ []) :
    (splice fill l pos data).length = max l.length (pos + data.length) := by
  rw [splice, if_neg hne]
  simp only [List.length_append, List.length_take, List.length_replicate, List.length_drop]
  omega

/-- Position by position: the data, the old values around them, and the filled gap. -/
theorem getElem?_splice (hne : data ≠ []) {x : Nat} (hx : x < max l.length (pos + data.length)) :
    (splice fill l pos data)[x]? = some (if pos ≤ x ∧ x < pos + data.length then
      data.getD (x - pos) fill else l.getD x fill) := by
  have htake : (l.take pos).length = min pos l.length := List.length_take
  rw [splice, if_neg hne]
  by_cases hbefore : x < pos
  · rw [List.append_assoc, List.getElem?_append_left (by simp; omega), if_neg (by omega)]
    by_cases hold : x < l.length
    · rw [List.getElem?_append_left (by omega), List.getElem?_take_of_lt hbefore,
        List.getElem?_eq_getElem hold, List.getD_eq_getElem _ _ hold]
    · rw [List.getElem?_append_right (by omega), List.getD_eq_default _ _ (by omega),
        List.getElem?_replicate, if_pos (by omega)]
  · have hfront : (l.take pos ++ List.replicate (pos - l.length) fill).length = pos := by
      simp only [List.length_append, List.length_replicate]
      omega
    by_cases hin : x < pos + data.length
    · rw [List.getElem?_append_left (by rw [List.length_append]; omega),
        List.getElem?_append_right (by omega), hfront, if_pos ⟨by omega, hin⟩,
        List.getElem?_eq_getElem (by omega), List.getD_eq_getElem]
    · have hold : x < l.length := by omega
      rw [List.getElem?_append_right (by rw [List.length_append]; omega), List.length_append,
        hfront, List.getElem?_drop, if_neg (by omega), List.getD_eq_getElem _ _ hold,
        show pos + data.length + (x - (pos + data.length)) = x by omega,
        List.getElem?_eq_getElem hold]

/-- What was written is read. -/
theorem slice_splice_self : slice (splice fill l pos data) pos data.length = data := by
  by_cases hne : data = []
  · subst hne
    exact List.take_zero
  refine List.ext_getElem? fun i => ?_
  rw [slice, List.getElem?_take]
  split_ifs with hi
  · rw [List.getElem?_drop, getElem?_splice hne (by omega), if_pos ⟨by omega, by omega⟩,
      List.getElem?_eq_getElem hi, Nat.add_sub_cancel_left, List.getD_eq_getElem _ _ hi]
  · rw [List.getElem?_eq_none (by omega)]

/-- Values that are not written over are read as before. -/
theorem slice_splice_of_disjoint {off : Nat} {old : List α} (hold : slice l off old.length = old)
    (hapart : data = [] ∨ pos + data.length ≤ off ∨ off + old.length ≤ pos) :
    slice (splice fill l pos data) off old.length = old := by
  by_cases hne : data = []
  · rwa [splice, if_pos hne]
  have hapart := hapart.resolve_left hne
  have hlen := congrArg List.length hold
  rw [length_slice] at hlen
  refine List.ext_getElem? fun i => ?_
  rw [slice, List.getElem?_take]
  split_ifs with hi
  · have hget := congrArg (fun l : List α => l[i]?) hold
    simp only [slice, List.getElem?_take, if_pos hi, List.getElem?_drop] at hget
    have hin : off + i < l.length := by omega
    rw [List.getElem?_drop, getElem?_splice hne (lt_max_of_lt_left hin),
      if_neg (by omega), ← hget,
      List.getD_eq_getElem _ _ hin, List.getElem?_eq_getElem hin]
  · rw [List.getElem?_eq_none (by omega)]

end Sequences

/-! ## The store -/

/-- Names for numbered files, the files, what objects are open on a file and where, and the
descriptors for such objects. -/
@[ext] structure Store (Name Obj Fd α : Type) where
  names : Name → Option Nat
  body : Nat → List α
  opened : Obj → Option (Nat × Nat)
  fd : Fd → Option Obj

/-- Where a seek counts from. -/
inductive Origin
  | start
  | here
  | finish

inductive Event (Name Fd α : Type)
  | open (name : Option Name) (create : Bool) (ret : Option Fd)
  | close (fd : Fd)
  | read (fd : Fd) (count : Nat) (ret : Int) (data : List α)
  | write (fd : Fd) (data : List α) (ret : Int)
  | seek (fd : Fd) (origin : Origin) (offset ret : Int)
  | restart
  | idle

def Store.setBody (s : Store Name Obj Fd α) (n : Nat) (l : List α) : Store Name Obj Fd α :=
  { s with body := Function.update s.body n l }

/-- Object `o` is opened on file `n` at a position. -/
def Store.attach [DecidableEq Obj] (s : Store Name Obj Fd α) (o : Obj) (n pos : Nat) :
    Store Name Obj Fd α :=
  { s with opened := Function.update s.opened o (some (n, pos)) }

/-- Descriptor `i` gets object `o`. -/
def Store.give [DecidableEq Fd] (s : Store Name Obj Fd α) (i : Fd) (o : Obj) :
    Store Name Obj Fd α :=
  { s with fd := Function.update s.fd i (some o) }

section Updates

variable (s : Store Name Obj Fd α) (i : Fd) (o : Obj) (n pos : Nat) (l : List α)

@[simp] theorem Store.setBody_names : (s.setBody n l).names = s.names := rfl

@[simp] theorem Store.setBody_body : (s.setBody n l).body = Function.update s.body n l := rfl

@[simp] theorem Store.setBody_opened : (s.setBody n l).opened = s.opened := rfl

@[simp] theorem Store.setBody_fd : (s.setBody n l).fd = s.fd := rfl

section Attach

variable [DecidableEq Obj]

@[simp] theorem Store.attach_names : (s.attach o n pos).names = s.names := rfl

@[simp] theorem Store.attach_body : (s.attach o n pos).body = s.body := rfl

@[simp] theorem Store.attach_opened :
    (s.attach o n pos).opened = Function.update s.opened o (some (n, pos)) := rfl

@[simp] theorem Store.attach_fd : (s.attach o n pos).fd = s.fd := rfl

end Attach

section Give

variable [DecidableEq Fd]

@[simp] theorem Store.give_names : (s.give i o).names = s.names := rfl

@[simp] theorem Store.give_body : (s.give i o).body = s.body := rfl

@[simp] theorem Store.give_opened : (s.give i o).opened = s.opened := rfl

@[simp] theorem Store.give_fd : (s.give i o).fd = Function.update s.fd i (some o) := rfl

end Give

end Updates

variable [DecidableEq Name] [DecidableEq Obj] [DecidableEq Fd]

/-- The position an origin stands for. -/
def originAt (body : List α) (pos : Nat) : Origin → Int
  | .start => 0
  | .here => pos
  | .finish => body.length

/-- A read is short at the end of the file, a write past the end fills the gap, a file that is
created is empty and has a number of its own; a restart closes everything. -/
inductive Step (fill : α) : Store Name Obj Fd α → Event Name Fd α → Store Name Obj Fd α → Prop
  | full {s : Store Name Obj Fd α} {name : Option Name} {create : Bool} :
      (∀ i, s.fd i ≠ none) → Step fill s (.open name create none) s
  | missing {s : Store Name Obj Fd α} {name : Option Name} {create : Bool} {i : Fd} {o : Obj} :
      s.fd i = none → s.opened o = none →
      (∀ c, name = some c → s.names c = none ∧ create = false) →
      Step fill s (.open name create none) (s.give i o)
  | found {s : Store Name Obj Fd α} {c : Name} {create : Bool} {i : Fd} {o : Obj} {n : Nat} :
      s.fd i = none → s.opened o = none → s.names c = some n →
      Step fill s (.open (some c) create (some i)) ((s.give i o).attach o n 0)
  | created {s : Store Name Obj Fd α} {c : Name} {i : Fd} {o : Obj} {n : Nat} :
      s.fd i = none → s.opened o = none → s.names c = none → (∀ c, s.names c ≠ some n) →
      Step fill s (.open (some c) true (some i))
        (({ s with names := Function.update s.names c (some n) }.setBody n []).give i o
          |>.attach o n 0)
  | close {s : Store Name Obj Fd α} {i : Fd} {o : Obj} :
      s.fd i = some o → s.opened o ≠ none →
      Step fill s (.close i) { s with opened := Function.update s.opened o none }
  | read {s : Store Name Obj Fd α} {i : Fd} {o : Obj} {n pos count : Nat} :
      s.fd i = some o → s.opened o = some (n, pos) →
      Step fill s (.read i count (slice (s.body n) pos count).length (slice (s.body n) pos count))
        (s.attach o n (pos + (slice (s.body n) pos count).length))
  | write {s : Store Name Obj Fd α} {i : Fd} {o : Obj} {n pos : Nat} {data : List α} :
      s.fd i = some o → s.opened o = some (n, pos) →
      Step fill s (.write i data data.length)
        ((s.setBody n (splice fill (s.body n) pos data)).attach o n (pos + data.length))
  | seek {s : Store Name Obj Fd α} {i : Fd} {o : Obj} {n pos ret : Nat} {origin : Origin}
      {offset : Int} : s.fd i = some o → s.opened o = some (n, pos) →
      (ret : Int) = originAt (s.body n) pos origin + offset →
      Step fill s (.seek i origin offset ret) (s.attach o n ret)
  | restart {s : Store Name Obj Fd α} :
      Step fill s .restart { s with opened := fun _ => none, fd := fun _ => none }
  | idle {s : Store Name Obj Fd α} : Step fill s .idle s

/-! ## Values that stay -/

section Stays

variable {fill : α} {s s' : Store Name Obj Fd α} {c : Name} {data : List α} {pos : Nat}

/-- The file of that name has the data at that position. -/
def Has (c : Name) (pos : Nat) (data : List α) (s : Store Name Obj Fd α) : Prop :=
  ∃ n, s.names c = some n ∧ slice (s.body n) pos data.length = data

/-- A write to the file of that name keeps off the `len` values at the position. -/
def Spares (c : Name) (off len : Nat) (s : Store Name Obj Fd α) : Event Name Fd α → Prop
  | .write i data _ => ∀ o n pos, s.fd i = some o → s.opened o = some (n, pos) →
      s.names c = some n → data = [] ∨ pos + data.length ≤ off ∨ off + len ≤ pos
  | .open _ _ _ | .close _ | .read _ _ _ _ | .seek _ _ _ _ | .restart | .idle => True

/-- One event that spares them leaves the data there. -/
theorem Has.step (h : Has c pos data s) {a : Event Name Fd α} (ha : Spares c pos data.length s a)
    (st : Step fill s a s') : Has c pos data s' := by
  obtain ⟨n, hname, hdata⟩ := h
  cases st with
  | full => exact ⟨n, hname, hdata⟩
  | missing => exact ⟨n, hname, hdata⟩
  | found => exact ⟨n, hname, hdata⟩
  | @created c' i o m _ _ hnone hfresh =>
    have hnm : n ≠ m := by
      rintro rfl
      exact hfresh c hname
    have hcc : c ≠ c' := by
      rintro rfl
      rw [hnone] at hname
      cases hname
    refine ⟨n, ?_, ?_⟩
    · exact (Function.update_of_ne hcc ..).trans hname
    · have hbody : Function.update s.body m [] n = s.body n := Function.update_of_ne hnm ..
      show slice (Function.update s.body m [] n) pos data.length = data
      rw [hbody, hdata]
  | close => exact ⟨n, hname, hdata⟩
  | read => exact ⟨n, hname, hdata⟩
  | @write i o m off written hfd ho =>
    refine ⟨n, hname, ?_⟩
    simp only [Store.attach_body, Store.setBody_body]
    by_cases hnm : n = m
    · subst hnm
      rw [Function.update_self]
      exact slice_splice_of_disjoint hdata (ha o n off hfd ho hname)
    · rw [Function.update_of_ne hnm, hdata]
  | seek => exact ⟨n, hname, hdata⟩
  | restart => exact ⟨n, hname, hdata⟩
  | idle => exact ⟨n, hname, hdata⟩

/-- And so does every run of such events. -/
theorem Has.run (h : Has c pos data s) {tr : List (Event Name Fd α × Store Name Obj Fd α)}
    (hrun : Exec (Step fill) s tr) (hspares : Guarded (Spares c pos data.length) s tr) :
    Always (Has c pos data) s tr :=
  hrun.always_of_guarded (fun _ _ _ h ha st => h.step ha st) h hspares

/-- The descriptor is open on the file of that name, at that position. -/
def OpenOn (c : Name) (pos : Nat) (i : Fd) (s : Store Name Obj Fd α) : Prop :=
  ∃ o n, s.fd i = some o ∧ s.opened o = some (n, pos) ∧ s.names c = some n

/-- A write leaves its data in the file. -/
theorem Step.write_has {i : Fd} {ret : Int} (st : Step fill s (.write i data ret) s')
    (hon : OpenOn c pos i s) : Has c pos data s' := by
  obtain ⟨o, n, hfd, hopened, hname⟩ := hon
  cases st with
  | write hfd' hopened' =>
    obtain rfl := Option.some.inj (hfd.symm.trans hfd')
    obtain ⟨rfl, rfl⟩ := Prod.mk.inj (Option.some.inj (hopened.symm.trans hopened'))
    refine ⟨n, hname, ?_⟩
    simp only [Store.attach_body, Store.setBody_body, Function.update_self]
    exact slice_splice_self

/-- A read of as many values returns the data that the file has there. -/
theorem Step.read_has {i : Fd} {count : Nat} {ret : Int} {got : List α}
    (st : Step fill s (.read i count ret got) s') (hon : OpenOn c pos i s)
    (hhas : Has c pos data s) (hlen : data.length = count) : ret = count ∧ got = data := by
  obtain ⟨o, n, hfd, hopened, hname⟩ := hon
  obtain ⟨m, hname', hdata⟩ := hhas
  obtain rfl := Option.some.inj (hname.symm.trans hname')
  rw [hlen] at hdata
  cases st with
  | read hfd' hopened' =>
    obtain rfl := Option.some.inj (hfd.symm.trans hfd')
    obtain ⟨rfl, rfl⟩ := Prod.mk.inj (Option.some.inj (hopened.symm.trans hopened'))
    exact ⟨by rw [hdata, hlen], hdata⟩

/-- What is written is read back, after any run that spares it. -/
theorem read_back {i j : Fd} {count : Nat} {ret ret' : Int} {got : List α}
    {s₁ s₂ : Store Name Obj Fd α} {tr : List (Event Name Fd α × Store Name Obj Fd α)}
    (hwrite : Step fill s (.write i data ret) s₁) (hon : OpenOn c pos i s)
    (hrun : Exec (Step fill) s₁ tr) (hspares : Guarded (Spares c pos data.length) s₁ tr)
    (hread : Step fill (last s₁ tr) (.read j count ret' got) s₂)
    (hon' : OpenOn c pos j (last s₁ tr)) (hlen : data.length = count) :
    ret' = count ∧ got = data :=
  hread.read_has hon' ((hwrite.write_has hon).run hrun hspares).last hlen

end Stays

end RxdOs.Lib.NamedFiles
