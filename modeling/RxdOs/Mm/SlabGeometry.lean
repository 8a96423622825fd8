/- RxdOs/Mm/SlabGeometry
   source: mm/slab.c (kmem_cache_createx, _create_slab, _slab_alloc, _slab_free)
   digest: For which object sizes the objects of a slab keep off each other and off the end
   of the page. -/

import Mathlib.Tactic
import Mathlib.Order.CompletePartialOrder
import RxdOs.Mm.SlabSafety

set_option autoImplicit false
set_option relaxedAutoImplicit false

namespace RxdOs.Mm.SlabGeometry

open RxdOs.Base.Assert RxdOs.Lib.Execution RxdOs.Mm.SlabCache RxdOs.Mm.SlabSafety

/-- The bytes a caller that asked for `objsize` bytes may use. -/
def objBytes (objsize objp : Nat) : Set Nat := {x | objp ≤ x ∧ x < objp + objsize}

/-- The index array and the struct slab at the end of a page. -/
def overhead (c : Client) (page : Nat) : Set Nat :=
  {x | page + pageSize ≤ x + sizeofSlab + slabObjcnt c page * sizeofBufctl ∧ x < page + pageSize}

/-- The slabs of a cache hold objects of the size its creator asked for. -/
structure Geometry (c : Client) (cachep : CachePtr) (objsize : Nat) : Prop where
  objcnt : 1 ≤ (c.mm.cache cachep).objcnt
  apart : c.live.Pairwise fun p q => (c.mm.slab (pageOf p)).cache = cachep →
    pageOf p = pageOf q → Disjoint (objBytes objsize p) (objBytes objsize q)
  clear : ∀ p ∈ c.live, (c.mm.slab (pageOf p)).cache = cachep →
    Disjoint (objBytes objsize p) (overhead c (pageOf p))
  divisor : (c.mm.cache cachep).objsz ≠ 0
  number : ∀ page ∈ c.mm.pages, (c.mm.slab page).cache = cachep → ∀ i < slabObjcnt c page,
    slabObjnr c.mm (slabObj c.mm i page) = .ok i

/-- A page has room for the object and its index, and rounding down loses nothing or there is
no second object to run into. -/
def Sized (objsize : Nat) : Prop :=
  0 < objsize ∧ objsize ≤ 4068 ∧ (objsize % 4 = 0 ∨ 2036 ≤ objsize)

instance (objsize : Nat) : Decidable (Sized objsize) := inferInstanceAs (Decidable (_ ∧ _))

/-- What the users may call; new caches are for sizes in order. -/
def SizedCall (c : Client) : Call → Prop
  | .create objsize page => Sized objsize ∧ Fresh c.mm page
  | .alloc cachep page => cachep ∈ c.caches ∧ Fresh c.mm page
  | .free cachep objp =>
    cachep ∈ c.caches ∧ objp ∈ c.live ∧ (c.mm.slab (pageOf objp)).cache = cachep

def SizedStep (c : Client) (a : Call) (c' : Client) : Prop := SizedCall c a ∧ c.call a = .ok c'

/-- The users' state once they have a new cache. -/
def withCache (c : Client) (addr : Nat) (mm : SlabState) : Client :=
  ⟨mm, .object addr :: c.caches, addr :: c.live⟩

variable {c c' : Client} {s s' : SlabState} {cachep : CachePtr} {objsize page addr : Nat}

/-! ## Rounding -/

theorem align2_eq (objsize : Nat) : align2 objsize = 4 * (objsize / 4) := by
  simp only [align2]
  omega

theorem objcntOf_pos_iff {objsz : Nat} : 1 ≤ objcntOf objsz ↔ objsz ≤ 4068 := by
  simp only [objcntOf, pageSize, sizeofSlab, sizeofBufctl]
  rw [Nat.le_div_iff_mul_le (by omega)]
  omega

theorem objcntOf_two_iff {objsz : Nat} : 2 ≤ objcntOf objsz ↔ objsz ≤ 2032 := by
  simp only [objcntOf, pageSize, sizeofSlab, sizeofBufctl]
  rw [Nat.le_div_iff_mul_le (by omega)]
  omega

theorem Sized.align (h : Sized objsize) : 4 ≤ align2 objsize ∧ 1 ≤ objcntOf (align2 objsize) := by
  obtain ⟨hpos, hle, hmul⟩ := h
  rw [objcntOf_pos_iff, align2_eq]
  omega

/-! ## The sizes of a cache stay -/

def SameSizes (s s' : SlabState) : Prop := ∀ cachep,
  (s'.cache cachep).objsz = (s.cache cachep).objsz ∧
    (s'.cache cachep).objcnt = (s.cache cachep).objcnt

theorem SameSizes.trans {s'' : SlabState} (h : SameSizes s s') (h' : SameSizes s' s'') :
    SameSizes s s'' := fun cachep =>
  ⟨(h' cachep).1.trans (h cachep).1, (h' cachep).2.trans (h cachep).2⟩

theorem sameSizes_relink (s : SlabState) (page : Nat) (sl : Slab) (cachep : CachePtr)
    (w : SlabList) : SameSizes s (listAdd (listDel (setSlab s page sl) page) page cachep w) := by
  intro c
  simp only [listAdd, setCache, listDel, setSlab, Function.update_apply]
  split_ifs with h
  · rw [h]
    exact ⟨rfl, rfl⟩
  · exact ⟨rfl, rfl⟩

theorem sameSizes_listAdd (s : SlabState) (page : Nat) (cachep : CachePtr) (w : SlabList) :
    SameSizes s (listAdd s page cachep w) := by
  intro c
  simp only [listAdd, setCache, Function.update_apply]
  split_ifs with h
  · rw [h]
    exact ⟨rfl, rfl⟩
  · exact ⟨rfl, rfl⟩

theorem slabAlloc_sizes {objp : Nat} (h : slabAlloc s page = .ok (objp, s')) : SameSizes s s' := by
  simp only [slabAlloc, bind_eq_ok, pure_eq_ok, Except.ok.injEq, Prod.mk.injEq] at h
  obtain ⟨_, -, _, -, -, rfl⟩ := h
  exact sameSizes_relink _ _ _ _ _

theorem createSlab_sizes (h : createSlab s cachep page = .ok s') : SameSizes s s' := by
  simp only [createSlab, allocZeroedPage, bind_eq_ok, pure_eq_ok, Except.ok.injEq] at h
  obtain ⟨_, -, _, ⟨_, -, rfl⟩, _, -, _, -, rfl⟩ := h
  exact sameSizes_listAdd (setSlab { s with pages := page :: s.pages } page _) page cachep _

theorem kmemCacheAlloc_sizes {objp : Nat} (h : kmemCacheAlloc s cachep page = .ok (objp, s')) :
    SameSizes s s' := by
  simp only [kmemCacheAlloc, bind_eq_ok] at h
  obtain ⟨_, -, h⟩ := h
  split at h
  · exact slabAlloc_sizes h
  · split at h
    · exact slabAlloc_sizes h
    · obtain ⟨s₁, hcreate, halloc⟩ := bind_eq_ok.mp h
      exact (createSlab_sizes hcreate).trans (slabAlloc_sizes halloc)

theorem kmemCacheFree_sizes {objp : Nat} (h : kmemCacheFree s cachep objp = .ok s') :
    SameSizes s s' := by
  simp only [kmemCacheFree, slabFree, bind_eq_ok, pure_eq_ok, Except.ok.injEq] at h
  obtain ⟨_, -, _, -, _, -, rfl⟩ := h
  exact sameSizes_relink _ _ _ _ _

/-- A new cache has the rounded size; the others keep theirs. -/
theorem kmemCacheCreate_sizes (h : kmemCacheCreate s objsize page = .ok (addr, s')) :
    0 < objsize ∧ s'.cache (.object addr) =
        ⟨fun _ => [], align2 objsize, objcntOf (align2 objsize)⟩ ∧
      ∀ cachep, cachep ≠ .object addr →
        (s'.cache cachep).objsz = (s.cache cachep).objsz ∧
          (s'.cache cachep).objcnt = (s.cache cachep).objcnt := by
  simp only [kmemCacheCreate, bind_eq_ok, assert_eq_ok, pure_eq_ok, Except.ok.injEq,
    Prod.mk.injEq] at h
  obtain ⟨_, hpos, ⟨addr, s₁⟩, halloc, _, -, rfl, rfl⟩ := h
  refine ⟨hpos, Function.update_self .., fun cachep hne => ?_⟩
  simp only [setCache, Function.update_of_ne hne]
  exact kmemCacheAlloc_sizes halloc cachep

/-! ## Sizes in order -/

/-- The cache was made for objects of `objsize` bytes. -/
structure MadeFor (c : Client) (addr objsize : Nat) : Prop where
  mem : .object addr ∈ c.caches
  objsz : (c.mm.cache (.object addr)).objsz = align2 objsize
  objcnt : (c.mm.cache (.object addr)).objcnt = objcntOf (align2 objsize)

theorem MadeFor.same (h : MadeFor c addr objsize) (hsizes : SameSizes c.mm c'.mm)
    (hcaches : c'.caches = c.caches) : MadeFor c' addr objsize :=
  ⟨hcaches ▸ h.mem, (hsizes _).1.trans h.objsz, (hsizes _).2.trans h.objcnt⟩

/-- The allocator's invariant, with no user in possession of cache_cache. -/
def Sound (c : Client) : Prop := Inv c ∧ .cacheCache ∉ c.caches

theorem Sound.start (slab : Nat → Slab) (cache : CachePtr → KmemCache) :
    Sound (start slab cache) :=
  ⟨Inv.start slab cache, by simp [SlabSafety.start]⟩

/-- A size that rounds to something a page has room for keeps the allocator sound. -/
theorem Sound.create (h : Sound c) (hsize : 4 ≤ align2 objsize)
    (hcnt : 1 ≤ objcntOf (align2 objsize)) (hfresh : Fresh c.mm page) :
    ∃ addr mm, kmemCacheCreate c.mm objsize page = .ok (addr, mm) ∧ Sound (withCache c addr mm) := by
  obtain ⟨addr, mm, hcall, -, hinv⟩ := h.1.kmemCacheCreate hsize hcnt hfresh
  exact ⟨addr, mm, hcall, hinv, by simp [withCache, h.2]⟩

theorem Sound.step {a : Call} (h : Sound c) (st : SizedStep c a c') : Sound c' := by
  obtain ⟨ha, hcall⟩ := st
  cases a with
  | create objsize page =>
    obtain ⟨addr, mm, hcreate, hsound⟩ := h.create ha.1.align.1 ha.1.align.2 ha.2
    simp only [Client.call, hcreate, ok_bind, pure_eq_ok, Except.ok.injEq] at hcall
    exact hcall ▸ hsound
  | alloc cachep page => exact Inv.step h (show Step c (.alloc cachep page) c' from ⟨ha, hcall⟩)
  | free cachep objp => exact Inv.step h (show Step c (.free cachep objp) c' from ⟨ha, hcall⟩)

theorem MadeFor.step {a : Call} (h : MadeFor c addr objsize) (hsound : Sound c)
    (st : SizedStep c a c') : MadeFor c' addr objsize := by
  obtain ⟨ha, hcall⟩ := st
  cases a with
  | create size page =>
    obtain ⟨addr', mm, hcreate, hdead, -⟩ := hsound.1.kmemCacheCreate ha.1.align.1 ha.1.align.2 ha.2
    obtain ⟨-, -, hother⟩ := kmemCacheCreate_sizes hcreate
    simp only [Client.call, hcreate, ok_bind, pure_eq_ok, Except.ok.injEq] at hcall
    -- the object of the older cache is in use
    have hne : CachePtr.object addr ≠ .object addr' := fun heq =>
      hdead (CachePtr.object.inj heq ▸ (hsound.1.homes addr h.mem).1)
    rw [← hcall]
    exact ⟨List.mem_cons_of_mem _ h.mem, (hother _ hne).1.trans h.objsz,
      (hother _ hne).2.trans h.objcnt⟩
  | alloc cachep page =>
    simp only [Client.call, bind_eq_ok, pure_eq_ok, Except.ok.injEq] at hcall
    obtain ⟨⟨objp, mm⟩, halloc, rfl⟩ := hcall
    exact h.same (kmemCacheAlloc_sizes halloc) rfl
  | free cachep objp =>
    simp only [Client.call, bind_eq_ok, pure_eq_ok, Except.ok.injEq] at hcall
    obtain ⟨mm, hfree, rfl⟩ := hcall
    exact h.same (kmemCacheFree_sizes hfree) rfl

/-- The number of a live object of the cache. -/
theorem MadeFor.object (h : MadeFor c addr objsize) (hsound : Sound c) {p : Nat} (hp : p ∈ c.live)
    (hcache : (c.mm.slab (pageOf p)).cache = .object addr) :
    ∃ i < objcntOf (align2 objsize), p = pageOf p + i * align2 objsize := by
  obtain ⟨-, i, hi, heq⟩ := hsound.1.live p hp
  rw [slabObjcnt, hcache, h.objcnt] at hi
  rw [slabObjsz, hcache, h.objsz] at heq
  exact ⟨i, hi, heq⟩

/-- Objects of a size in order do not run into the next one. -/
theorem Sized.apart (h : Sized objsize) {i j : Nat} (hj : j < objcntOf (align2 objsize))
    (hij : i < j) :
    i * align2 objsize + objsize ≤ j * align2 objsize := by
  have htwo : align2 objsize ≤ 2032 := objcntOf_two_iff.mp (by omega)
  have hmul : (i + 1) * align2 objsize ≤ j * align2 objsize := Nat.mul_le_mul_right _ hij
  have halign : align2 objsize = objsize := by
    have := h.2.2
    rw [align2_eq] at htwo ⊢
    omega
  rw [Nat.add_mul, one_mul] at hmul
  omega

/-- Nor do they reach the indices. -/
theorem Sized.clear (h : Sized objsize) {i : Nat} (hi : i < objcntOf (align2 objsize)) :
    i * align2 objsize + objsize + objcntOf (align2 objsize) * sizeofBufctl + sizeofSlab ≤
      pageSize := by
  obtain ⟨-, hle, hmul⟩ := h
  by_cases htwo : 2 ≤ objcntOf (align2 objsize)
  · have hsmall := objcntOf_two_iff.mp htwo
    have halign : align2 objsize = objsize := by
      rw [align2_eq] at hsmall ⊢
      omega
    have hfit := objects_fit hi
    omega
  · have hone : objcntOf (align2 objsize) = 1 := by omega
    obtain rfl : i = 0 := by omega
    rw [hone]
    simp only [sizeofBufctl, sizeofSlab, pageSize]
    omega

theorem MadeFor.geometry (h : MadeFor c addr objsize) (hsound : Sound c) (hsized : Sized objsize) :
    Geometry c (.object addr) objsize := by
  refine ⟨?_, ?_, ?_, ?_, ?_⟩
  · rw [h.objcnt]
    exact hsized.align.2
  · refine List.Pairwise.imp_of_mem ?_ hsound.1.liveNodup
    intro p q hp hq hne hcache hpage
    obtain ⟨i, hi, hpi⟩ := h.object hsound hp hcache
    obtain ⟨j, hj, hqj⟩ := h.object hsound hq (hpage ▸ hcache)
    rw [Set.disjoint_left]
    rintro x ⟨hpx, hxp⟩ ⟨hqx, hxq⟩
    rcases Nat.lt_trichotomy i j with hlt | heq | hgt
    · have hle := hsized.apart hj hlt
      omega
    · subst heq
      exact hne (hpi.trans (by omega))
    · have hle := hsized.apart hi hgt
      omega
  · intro p hp hcache
    obtain ⟨i, hi, hpi⟩ := h.object hsound hp hcache
    have hfit := hsized.clear hi
    rw [Set.disjoint_left]
    rintro x ⟨hpx, hxp⟩ ⟨hlow, -⟩
    rw [slabObjcnt, hcache, h.objcnt] at hlow
    omega
  · have hpos := hsized.align.1
    rw [h.objsz]
    omega
  · intro page hpage hcache i hi
    have hobj : slabObj c.mm i page = page + i * slabObjsz c page := by
      rw [slabObj, (hsound.1.slabs page hpage).data]
      rfl
    rw [hobj]
    exact hsound.1.slabObjnr hpage hi

/-! ## Sizes out of order -/

/-- A cache without slabs has given out object 0 of a new page. -/
def afterFirst (c : Client) (cachep : CachePtr) (page : Nat) : Client where
  mm := relist (grown c.mm cachep page) page
    (newSlab cachep (c.mm.cache cachep).objcnt page).taken
  caches := c.caches
  live := page :: c.live

theorem afterFirst_slab (c : Client) (cachep : CachePtr) (page : Nat) :
    (afterFirst c cachep page).mm.slab page =
      (newSlab cachep (c.mm.cache cachep).objcnt page).taken :=
  relist_slab_self ..

theorem firstAlloc (h : Inv c) (hk : Known c cachep)
    (hempty : ∀ w, (c.mm.cache cachep).lists w = []) (hfresh : Fresh c.mm page) :
    kmemCacheAlloc c.mm cachep page = .ok (page, (afterFirst c cachep page).mm) := by
  have hgrown := h.grown hk hfresh
  have hpage : page ∈ (grown c.mm cachep page).pages := List.mem_cons_self ..
  have hself : (grown c.mm cachep page).slab page =
      newSlab cachep (c.mm.cache cachep).objcnt page := grown_slab_self ..
  have hfree : ((grown c.mm cachep page).slab page).free ≠ bufctlEnd := by
    rw [hself]
    show 0 ≠ bufctlEnd
    decide
  have hobj : slabObj (afterFirst c cachep page).mm 0 page = page := by
    rw [slabObj, afterFirst_slab]
    simp [Slab.taken, newSlab]
  have halloc := slabAlloc_eq hfree (hgrown.checkSlab hpage)
  simp only [hself] at halloc
  rw [kmemCacheAlloc, h.checkCache hk, ok_bind, hempty, hempty, h.createSlab hk hfresh, ok_bind,
    halloc]
  exact congrArg Except.ok (Prod.ext hobj rfl)

theorem firstStep (h : Inv c) (hmem : cachep ∈ c.caches)
    (hempty : ∀ w, (c.mm.cache cachep).lists w = []) (hfresh : Fresh c.mm page) :
    SizedStep c (.alloc cachep page) (afterFirst c cachep page) := by
  refine ⟨⟨hmem, hfresh⟩, ?_⟩
  rw [Client.call, firstAlloc h (.inr hmem) hempty hfresh]
  rfl

/-- The record of a new slab that has given out object 0. -/
theorem newSlab_taken_free {n : Nat} (htwo : 2 ≤ n) : (newSlab cachep n page).taken.free = 1 := by
  show Function.update (fillBufctl n 0 fun _ => 0) (n - 1) bufctlEnd 0 = 1
  rw [Function.update_of_ne (by omega), fillBufctl_apply, if_pos (by omega)]

/-- It still has objects to give. -/
theorem afterFirst_partial (hempty : ∀ w, (c.mm.cache cachep).lists w = [])
    (htwo : 2 ≤ (c.mm.cache cachep).objcnt) :
    ((afterFirst c cachep page).mm.cache cachep).lists .slabsPartial = [page] := by
  have hhome : home (newSlab cachep (c.mm.cache cachep).objcnt page).taken = .slabsPartial := by
    have hinuse : (newSlab cachep (c.mm.cache cachep).objcnt page).taken.inuse = 1 := rfl
    rw [home, hinuse, newSlab_taken_free htwo]
    rfl
  have hne : ¬(cachep = cachep ∧ SlabList.slabsPartial = .slabsFree) := by
    rintro ⟨-, hlist⟩
    cases hlist
  rw [afterFirst, relist_lists, if_pos ⟨rfl, hhome.symm⟩, grown_lists, if_neg hne, hempty]
  rfl

/-- The next allocation takes object 1 of the same page, if there is one. -/
theorem secondAlloc (hk : Known c cachep) (hempty : ∀ w, (c.mm.cache cachep).lists w = [])
    (htwo : 2 ≤ (c.mm.cache cachep).objcnt) (hinv : Inv (afterFirst c cachep page))
    (page' : Nat) : ∃ mm, kmemCacheAlloc (afterFirst c cachep page).mm cachep page' =
        .ok (page + (c.mm.cache cachep).objsz, mm) ∧ (mm.slab page).cache = cachep := by
  have hself := afterFirst_slab c cachep page
  set sl := (newSlab cachep (c.mm.cache cachep).objcnt page).taken with hsl
  have hfree : sl.free = 1 := newSlab_taken_free htwo
  have hpage : page ∈ (afterFirst c cachep page).mm.pages := List.mem_cons_self ..
  have hsz : ((afterFirst c cachep page).mm.cache cachep).objsz = (c.mm.cache cachep).objsz :=
    (relist_objsz ..).trans (grown_objsz ..)
  have halloc := slabAlloc_eq (by rw [hself, hfree]; decide) (hinv.checkSlab hpage)
  rw [hself, hfree] at halloc
  have hobj : slabObj (relist (afterFirst c cachep page).mm page sl.taken) 1 page =
      page + (c.mm.cache cachep).objsz := by
    rw [slabObj, relist_slab_self, relist_objsz, taken_cache, taken_data, one_mul, ← hsz]
    rfl
  refine ⟨relist (afterFirst c cachep page).mm page sl.taken, ?_, ?_⟩
  · rw [kmemCacheAlloc, hinv.checkCache hk, ok_bind, afterFirst_partial hempty htwo, ← hobj]
    exact halloc
  · rw [relist_slab_self]
    rfl

/-- The last bytes of an object that is too large are those of its index. -/
theorem afterFirst_overlaps (hpos : 1 ≤ (c.mm.cache cachep).objcnt)
    (hpage : page % pageSize = 0) (hend : 4068 < objsize) :
    ¬Geometry (afterFirst c cachep page) cachep objsize := by
  intro hgeom
  have hself := afterFirst_slab c cachep page
  have hof : pageOf page = page := pageOf_add (k := 0) hpage (by decide)
  have hcnt : slabObjcnt (afterFirst c cachep page) page = (c.mm.cache cachep).objcnt := by
    rw [slabObjcnt, hself]
    exact (relist_objcnt ..).trans (grown_objcnt ..)
  have hhome : ((afterFirst c cachep page).mm.slab (pageOf page)).cache = cachep := by
    rw [hof, hself]
    rfl
  have hclear := Set.disjoint_left.mp (hgeom.clear page (List.mem_cons_self ..) hhome)
  have hin : page + 4068 ∈ objBytes objsize page := ⟨by omega, by omega⟩
  refine hclear hin ⟨?_, ?_⟩
  · rw [hof, hcnt]
    simp only [pageSize, sizeofSlab, sizeofBufctl]
    omega
  · rw [hof]
    simp only [pageSize]
    omega

/-- The second object begins inside the first when rounding has made them smaller. -/
theorem second_overlaps (hsound : Sound (afterFirst c cachep page)) (hmem : cachep ∈ c.caches)
    (hempty : ∀ w, (c.mm.cache cachep).lists w = []) (htwo : 2 ≤ (c.mm.cache cachep).objcnt)
    (hpage : page % pageSize = 0) (hless : (c.mm.cache cachep).objsz < objsize)
    (hin : (c.mm.cache cachep).objsz < pageSize) {page' : Nat}
    (hfresh : Fresh (afterFirst c cachep page).mm page') : ∃ c',
      SizedStep (afterFirst c cachep page) (.alloc cachep page') c' ∧
        ¬Geometry c' cachep objsize := by
  obtain ⟨mm, halloc, hcache⟩ := secondAlloc (.inr hmem) hempty htwo hsound.1 page'
  refine ⟨⟨mm, c.caches, (page + (c.mm.cache cachep).objsz) :: page :: c.live⟩,
    ⟨⟨hmem, hfresh⟩, ?_⟩, fun hgeom => ?_⟩
  · rw [Client.call, halloc]
    rfl
  · have hof : pageOf page = page := pageOf_add (k := 0) hpage (by decide)
    have hof' : pageOf (page + (c.mm.cache cachep).objsz) = page := pageOf_add hpage hin
    have happart := (List.pairwise_cons.mp hgeom.apart).1 page (List.mem_cons_self ..)
    rw [hof, hof'] at happart
    have hdis := Set.disjoint_left.mp (happart hcache rfl)
    have hleft : page + (c.mm.cache cachep).objsz ∈
        objBytes objsize (page + (c.mm.cache cachep).objsz) := ⟨by omega, by omega⟩
    exact hdis hleft ⟨by omega, by omega⟩

/-- The allocator before its first call. -/
def blank : Client := start (fun _ => ⟨.cacheCache, 0, 0, 0, fun _ => 0⟩) fun _ => ⟨fun _ => [], 0, 0⟩

theorem blank_sound : Sound blank := Sound.start _ _

theorem blank_fresh : Fresh blank.mm 4096 := by decide

/-- The sizes that pass the assertion and the division. -/
def Accepted (objsize : Nat) : Prop := 0 < objsize ∧ align2 objsize + sizeofBufctl < 2 ^ 32

instance (objsize : Nat) : Decidable (Accepted objsize) := inferInstanceAs (Decidable (_ ∧ _))

theorem kmemCacheCreate_of_alloc (hacc : Accepted objsize)
    (halloc : kmemCacheAlloc s .cacheCache page = .ok (addr, s')) :
    kmemCacheCreate s objsize page = .ok (addr, setCache s' (.object addr)
      ⟨fun _ => [], align2 objsize, objcntOf (align2 objsize)⟩) := by
  simp only [kmemCacheCreate, assert_pos hacc.1, halloc, ok_bind, access_pos hacc.2, pure_eq_ok]

/-- The first cache, in object 0 of page 4096. -/
theorem blank_create (hacc : Accepted objsize) : ∃ mm,
    kmemCacheCreate blank.mm objsize 4096 = .ok (4096, mm) ∧ mm.pages = [4096] ∧
      mm.cache (.object 4096) = ⟨fun _ => [], align2 objsize, objcntOf (align2 objsize)⟩ := by
  have halloc := firstAlloc blank_sound.1 (.inl rfl) (fun _ => rfl) blank_fresh
  have hcreate := kmemCacheCreate_of_alloc hacc halloc
  exact ⟨_, hcreate, rfl, (kmemCacheCreate_sizes hcreate).2.1⟩

/-- A size out of order breaks the geometry after two allocations at the latest. -/
theorem not_sized_breaks (hacc : Accepted objsize) (hsized : ¬Sized objsize) : ∃ mm c',
    kmemCacheCreate blank.mm objsize 4096 = .ok (4096, mm) ∧
      Reach SizedStep (withCache blank 4096 mm) c' ∧ ¬Geometry c' (.object 4096) objsize := by
  obtain ⟨mm, hcreate, hpages, hcache⟩ := blank_create hacc
  refine ⟨mm, ?_⟩
  set c₀ := withCache blank 4096 mm with hc₀
  have hcache₀ : c₀.mm.cache (.object 4096) =
      ⟨fun _ => [], align2 objsize, objcntOf (align2 objsize)⟩ := hcache
  by_cases hsmall : align2 objsize = 0
  · -- the size rounds to 0
    refine ⟨c₀, hcreate, .refl, fun hgeom => hgeom.divisor ?_⟩
    rw [hcache₀]
    exact hsmall
  by_cases hlarge : 4068 < align2 objsize
  · -- no object fits
    refine ⟨c₀, hcreate, .refl, fun hgeom => ?_⟩
    have hcnt := hgeom.objcnt
    rw [hcache₀] at hcnt
    exact absurd (objcntOf_pos_iff.mp hcnt) (not_le.mpr hlarge)
  have hfits : 1 ≤ objcntOf (align2 objsize) := objcntOf_pos_iff.mpr (not_lt.mp hlarge)
  have hfour : 4 ≤ align2 objsize := by
    rw [align2_eq] at hsmall ⊢
    omega
  obtain ⟨addr, mm', hcreate', hsound⟩ := blank_sound.create hfour hfits blank_fresh
  obtain ⟨rfl, rfl⟩ := Prod.mk.inj (Except.ok.inj (hcreate'.symm.trans hcreate))
  have hmem : CachePtr.object 4096 ∈ c₀.caches := List.mem_cons_self ..
  have hempty : ∀ w, (c₀.mm.cache (.object 4096)).lists w = [] := fun w => by rw [hcache₀]
  have hfresh : Fresh c₀.mm 8192 := by
    refine ⟨by decide, by decide, by decide, ?_⟩
    show 8192 ∉ mm'.pages
    rw [hpages]
    decide
  have hstep := firstStep hsound.1 hmem hempty hfresh
  by_cases hend : 4068 < objsize
  · refine ⟨_, hcreate, .single ⟨_, hstep⟩, afterFirst_overlaps ?_ (by decide) hend⟩
    rw [hcache₀]
    exact hfits
  · have hpos := hacc.1
    have hround := align2_eq objsize
    simp only [Sized] at hsized
    have hfresh' : Fresh (afterFirst c₀ (.object 4096) 8192).mm 12288 := by
      refine ⟨by decide, by decide, by decide, ?_⟩
      show 12288 ∉ 8192 :: mm'.pages
      rw [hpages]
      decide
    obtain ⟨c', hstep', hbad⟩ := second_overlaps (hsound.step hstep) hmem hempty
      (by rw [hcache₀]; exact objcntOf_two_iff.mpr (by omega)) (by decide)
      (by rw [hcache₀]; show align2 objsize < objsize; omega)
      (by rw [hcache₀]; show align2 objsize < 4096; omega) hfresh'
    exact ⟨c', hcreate, .tail (.single ⟨_, hstep⟩) ⟨_, hstep'⟩, hbad⟩

/-- The objects of a cache keep off each other and off the end of their page, in every slab and
whatever is called, exactly when the size is in order. -/
theorem slab_geometry_iff (hacc : Accepted objsize) :
    (∀ (slab : Nat → Slab) (cache : CachePtr → KmemCache) (c c' : Client) (page addr : Nat)
        (mm : SlabState), Reach SizedStep (start slab cache) c → Fresh c.mm page →
      kmemCacheCreate c.mm objsize page = .ok (addr, mm) →
      Reach SizedStep (withCache c addr mm) c' → Geometry c' (.object addr) objsize) ↔
      Sized objsize := by
  constructor
  · intro hall
    by_contra hsized
    obtain ⟨mm, c', hcreate, hreach, hbad⟩ := not_sized_breaks hacc hsized
    exact hbad (hall _ _ blank c' 4096 4096 mm .refl (by decide) hcreate hreach)
  · intro hsized slab cache c c' page addr mm hreach hfresh hcreate hreach'
    have hsound : Sound c := hreach.inv (fun _ _ _ h st => h.step st) (Sound.start slab cache)
    obtain ⟨addr', mm', hcreate', hnew⟩ := hsound.create hsized.align.1 hsized.align.2 hfresh
    rw [hcreate, Except.ok.injEq, Prod.mk.injEq] at hcreate'
    obtain ⟨rfl, rfl⟩ := hcreate'
    obtain ⟨-, hcache, -⟩ := kmemCacheCreate_sizes hcreate
    have hmade : MadeFor (withCache c addr mm) addr objsize :=
      ⟨List.mem_cons_self .., congrArg KmemCache.objsz hcache, congrArg KmemCache.objcnt hcache⟩
    let P : Client → Prop := fun x => Sound x ∧ MadeFor x addr objsize
    have hinv : P c' :=
      Reach.inv hreach' (fun _ _ _ h st => ⟨h.1.step st, h.2.step h.1 st⟩) ⟨hnew, hmade⟩
    exact hinv.2.geometry hinv.1 hsized

/-- The first cache of eight-byte objects keeps them apart. -/
theorem slab_geometry_eight : ∃ mm, kmemCacheCreate blank.mm 8 4096 = .ok (4096, mm) ∧
    Geometry (withCache blank 4096 mm) (.object 4096) 8 := by
  obtain ⟨mm, hcreate, -⟩ := blank_create (show Accepted 8 by decide)
  exact ⟨mm, hcreate, (@slab_geometry_iff 8 (by decide)).mpr (by decide) _ _ blank _ 4096 4096 mm
    .refl (by decide) hcreate .refl⟩

/-- Five-byte objects lie four bytes apart. -/
theorem five_bytes_overlap : ∃ mm c', kmemCacheCreate blank.mm 5 4096 = .ok (4096, mm) ∧
    Reach SizedStep (withCache blank 4096 mm) c' ∧ ¬Geometry c' (.object 4096) 5 :=
  not_sized_breaks (by decide) (by decide)

end RxdOs.Mm.SlabGeometry
