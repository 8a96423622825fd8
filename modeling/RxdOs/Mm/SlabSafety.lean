/- RxdOs/Mm/SlabSafety
   source: mm/slab.c
   digest: Over whole runs every slab's free chain lists its free objects, every slab is on
   the list its fill demands, and no object is handed out twice. -/

import RxdOs.Lib.Execution
import RxdOs.Mm.SlabCache

set_option autoImplicit false
set_option relaxedAutoImplicit false

namespace RxdOs.Mm.SlabSafety

open RxdOs.Base.Assert RxdOs.Lib.Execution RxdOs.Lib.IndexChain RxdOs.Mm.SlabCache

/-- The allocator with the caches its callers created and the objects they hold; the
caches themselves are such objects. -/
structure Client where
  mm : SlabState
  caches : List CachePtr
  live : List Nat

/-- `page` is the page alloc_zeroed_page returns if the call asks for one. -/
inductive Call
  | create (objsize page : Nat)
  | alloc (cachep : CachePtr) (page : Nat)
  | free (cachep : CachePtr) (objp : Nat)

/-- The calls the allocator's users may make. -/
def Allowed (c : Client) : Call → Prop
  | .create objsize page =>
    0 < objsize ∧ objsize % 4 = 0 ∧ 1 ≤ objcntOf objsize ∧ Fresh c.mm page
  | .alloc cachep page => cachep ∈ c.caches ∧ Fresh c.mm page
  | .free cachep objp =>
    cachep ∈ c.caches ∧ objp ∈ c.live ∧ (c.mm.slab (pageOf objp)).cache = cachep

instance (c : Client) (a : Call) : Decidable (Allowed c a) := by
  cases a <;> exact inferInstanceAs (Decidable (_ ∧ _))

def Client.call (c : Client) : Call → Kernel Client
  | .create objsize page => do
    let (cachep, mm) ← kmemCacheCreate c.mm objsize page
    pure ⟨mm, .object cachep :: c.caches, cachep :: c.live⟩
  | .alloc cachep page => do
    let (objp, mm) ← kmemCacheAlloc c.mm cachep page
    pure ⟨mm, c.caches, objp :: c.live⟩
  | .free cachep objp => do
    let mm ← kmemCacheFree c.mm cachep objp
    pure ⟨mm, c.caches, c.live.erase objp⟩

def Step (c : Client) (a : Call) (c' : Client) : Prop := Allowed c a ∧ c.call a = .ok c'

def start (slab : Nat → Slab) (cache : CachePtr → KmemCache) : Client :=
  ⟨init slab cache, [], []⟩

/-! ## Addresses -/

theorem pageOf_add {page k : Nat} (hpage : page % pageSize = 0) (hk : k < pageSize) :
    pageOf (page + k) = page := by
  simp only [pageOf, pageSize] at *
  omega

/-- The objects of a slab and its index array share the page without touching. -/
theorem objects_fit {objsz i : Nat} (hi : i < objcntOf objsz) :
    i * objsz + objsz + objcntOf objsz * sizeofBufctl + sizeofSlab ≤ pageSize := by
  have hdiv : objcntOf objsz * (objsz + sizeofBufctl) ≤ pageSize - sizeofSlab :=
    Nat.div_mul_le_self _ _
  have hmul : (i + 1) * objsz ≤ objcntOf objsz * objsz := Nat.mul_le_mul_right _ hi
  rw [Nat.mul_add] at hdiv
  rw [Nat.add_mul, one_mul] at hmul
  simp only [pageSize, sizeofSlab] at hdiv ⊢
  omega

theorem objcntOf_le {objsz : Nat} (h : 4 ≤ objsz) : objcntOf objsz ≤ 509 := by
  have hle : objcntOf objsz ≤ (pageSize - sizeofSlab) / 8 :=
    Nat.div_le_div_left (by simp only [sizeofBufctl]; omega) (by decide)
  exact hle.trans (by decide)

/-! ## The invariant -/

/-- The list a slab belongs on. -/
def home (sl : Slab) : SlabList :=
  if sl.inuse = 0 then .slabsFree else if sl.free = bufctlEnd then .slabsFull else .slabsPartial

/-- `cachep` is a cache: the static one or a created one. -/
def Known (c : Client) (cachep : CachePtr) : Prop := cachep = .cacheCache ∨ cachep ∈ c.caches

def slabObjsz (c : Client) (page : Nat) : Nat := (c.mm.cache (c.mm.slab page).cache).objsz
def slabObjcnt (c : Client) (page : Nat) : Nat := (c.mm.cache (c.mm.slab page).cache).objcnt

structure CacheOk (c : Client) (cachep : CachePtr) : Prop where
  objsz : 4 ≤ (c.mm.cache cachep).objsz
  objcnt : (c.mm.cache cachep).objcnt = objcntOf (c.mm.cache cachep).objsz
  pos : 1 ≤ (c.mm.cache cachep).objcnt
  nodup : ∀ w, ((c.mm.cache cachep).lists w).Nodup
  mem : ∀ w page, page ∈ (c.mm.cache cachep).lists w ↔
    page ∈ c.mm.pages ∧ (c.mm.slab page).cache = cachep ∧ home (c.mm.slab page) = w

structure SlabOk (c : Client) (page : Nat) : Prop where
  aligned : page % pageSize = 0
  nonzero : page ≠ 0
  data : (c.mm.slab page).data = page
  known : Known c (c.mm.slab page).cache
  chain : ∃ l, Chain (c.mm.slab page).bufctl bufctlEnd (c.mm.slab page).free l ∧
    (∀ i, i ∈ l ↔ i < slabObjcnt c page ∧ page + i * slabObjsz c page ∉ c.live) ∧
    l.length + (c.mm.slab page).inuse = slabObjcnt c page

structure Inv (c : Client) : Prop where
  caches : ∀ cachep, Known c cachep → CacheOk c cachep
  slabs : ∀ page ∈ c.mm.pages, SlabOk c page
  homes : ∀ addr, .object addr ∈ c.caches →
    addr ∈ c.live ∧ (c.mm.slab (pageOf addr)).cache = .cacheCache
  live : ∀ objp ∈ c.live, pageOf objp ∈ c.mm.pages ∧
    ∃ i < slabObjcnt c (pageOf objp), objp = pageOf objp + i * slabObjsz c (pageOf objp)
  liveNodup : c.live.Nodup

variable {c : Client}

theorem Inv.cacheOk (h : Inv c) {page : Nat} (hpage : page ∈ c.mm.pages) :
    CacheOk c (c.mm.slab page).cache :=
  h.caches _ (h.slabs page hpage).known

theorem Inv.pageOf_obj (h : Inv c) {page i : Nat} (hpage : page ∈ c.mm.pages)
    (hi : i < slabObjcnt c page) : pageOf (page + i * slabObjsz c page) = page := by
  have hcache := h.cacheOk hpage
  have hfit : i * slabObjsz c page + slabObjsz c page + _ + _ ≤ pageSize :=
    objects_fit (hcache.objcnt ▸ (show i < (c.mm.cache (c.mm.slab page).cache).objcnt from hi))
  refine pageOf_add (h.slabs page hpage).aligned ?_
  simp only [sizeofSlab] at hfit
  omega

/-! ## The checks -/

theorem countFree_eq {bufctl : Nat → Nat} {l : List Nat} (fuel next freecnt : Nat)
    (h : Chain bufctl bufctlEnd next l) (hfuel : l.length < fuel) :
    countFree bufctl fuel next freecnt = .ok (freecnt + l.length) := by
  induction l generalizing fuel next freecnt with
  | nil =>
    obtain ⟨fuel, rfl⟩ := Nat.exists_eq_add_of_lt hfuel
    simp [countFree, chain_nil.mp h]
  | cons a l ih =>
    obtain ⟨rfl, hne, htail⟩ := h
    obtain ⟨fuel, rfl⟩ := Nat.exists_eq_add_of_lt hfuel
    have hrest := ih (l.length + 1 + fuel) (bufctl next) (freecnt + 1) htail (by omega)
    simp only [List.length_cons, countFree, if_neg hne]
    rw [hrest]
    congr 1
    omega

theorem Inv.checkCache (h : Inv c) {cachep : CachePtr} (hk : Known c cachep) :
    checkCache c.mm cachep = .ok () := by
  have hcount := (h.caches cachep hk).objcnt
  rcases hk with rfl | hk
  · simp [SlabCache.checkCache, assert, hcount]
  · cases cachep with
    | cacheCache => simp [SlabCache.checkCache, assert, hcount]
    | object addr =>
      obtain ⟨hlive, hhome⟩ := h.homes addr hk
      have hne : addr ≠ 0 := by
        obtain ⟨hpage, i, -, heq⟩ := h.live addr hlive
        have := (h.slabs _ hpage).nonzero
        omega
      simp [SlabCache.checkCache, assert, hcount, hhome, hne]

theorem Inv.checkSlab (h : Inv c) {page : Nat} (hpage : page ∈ c.mm.pages) :
    checkSlab c.mm page = .ok () := by
  have hslab := h.slabs page hpage
  have hcache := h.cacheOk hpage
  obtain ⟨l, hchain, -, hlen⟩ := hslab.chain
  have hcount := objcntOf_le hcache.objsz
  rw [← hcache.objcnt] at hcount
  have haddr : (page + pageSize) % pageSize = 0 := by
    rw [Nat.add_mod_right]
    exact hslab.aligned
  have hdata : (c.mm.slab page).data ≠ 0 ∧ (c.mm.slab page).data % pageSize = 0 := by
    rw [hslab.data]
    exact ⟨hslab.nonzero, hslab.aligned⟩
  have hwalk := countFree_eq 1024 _ 0 hchain (by simp only [slabObjcnt] at hlen; omega)
  simp only [SlabCache.checkSlab, assert_pos haddr, assert_pos hdata, ok_bind,
    h.checkCache hslab.known, hwalk]
  exact assert_pos (by rw [Nat.zero_add]; exact hlen) _

/-! ## One slab changes -/

/-- A slab gets a new record and goes where its fill demands. -/
def relist (s : SlabState) (page : Nat) (sl : Slab) : SlabState :=
  listAdd (listDel (setSlab s page sl) page) page sl.cache (home sl)

section Relist

variable (s : SlabState) (page : Nat) (sl : Slab)

@[simp] theorem relist_pages : (relist s page sl).pages = s.pages := rfl

@[simp] theorem relist_slab_self : (relist s page sl).slab page = sl := Function.update_self ..

theorem relist_slab_of_ne {q : Nat} (h : q ≠ page) : (relist s page sl).slab q = s.slab q :=
  Function.update_of_ne h ..

@[simp] theorem relist_objsz (cachep : CachePtr) :
    ((relist s page sl).cache cachep).objsz = (s.cache cachep).objsz := by
  simp only [relist, listAdd, setCache, listDel, setSlab, Function.update_apply]
  split_ifs with h <;> simp [h]

@[simp] theorem relist_objcnt (cachep : CachePtr) :
    ((relist s page sl).cache cachep).objcnt = (s.cache cachep).objcnt := by
  simp only [relist, listAdd, setCache, listDel, setSlab, Function.update_apply]
  split_ifs with h <;> simp [h]

theorem relist_lists (cachep : CachePtr) (w : SlabList) :
    ((relist s page sl).cache cachep).lists w =
      if cachep = sl.cache ∧ w = home sl then page :: ((s.cache cachep).lists w).erase page
      else ((s.cache cachep).lists w).erase page := by
  simp only [relist, listAdd, setCache, listDel, setSlab, Function.update_apply]
  split_ifs <;> simp_all

end Relist

theorem pred32_of_pos {n : Nat} (hpos : 1 ≤ n) : pred32 n = n - 1 :=
  if_neg (by omega)

section Records

variable (sl : Slab) (objnr : Nat)

@[simp] theorem taken_cache : sl.taken.cache = sl.cache := rfl
@[simp] theorem taken_data : sl.taken.data = sl.data := rfl
@[simp] theorem returned_cache : (sl.returned objnr).cache = sl.cache := rfl
@[simp] theorem returned_data : (sl.returned objnr).data = sl.data := rfl

end Records

theorem home_taken (sl : Slab) : home sl.taken = listAfterAlloc sl.taken.free := by
  simp [home, Slab.taken, listAfterAlloc]

theorem home_returned (sl : Slab) {objnr : Nat} (hne : objnr ≠ bufctlEnd) :
    home (sl.returned objnr) = listAfterFree (sl.returned objnr).inuse := by
  have hfree : (sl.returned objnr).free ≠ bufctlEnd := hne
  rw [home, listAfterFree, if_neg hfree]

theorem slabAlloc_eq {s : SlabState} {page : Nat} (hfree : (s.slab page).free ≠ bufctlEnd)
    (hcheck : checkSlab s page = .ok ()) :
    slabAlloc s page = .ok (slabObj (relist s page (s.slab page).taken) (s.slab page).free page,
      relist s page (s.slab page).taken) := by
  simp only [slabAlloc, assert_pos hfree, hcheck, ok_bind, pure_eq_ok, relist, home_taken]

theorem slabFree_eq {s : SlabState} {objp objnr : Nat}
    (hcheck : checkSlab s (pageOf objp) = .ok ()) (hne : objnr ≠ bufctlEnd)
    (hobjnr : slabObjnr s objp = .ok objnr) :
    slabFree s objp = .ok (relist s (pageOf objp) ((s.slab (pageOf objp)).returned objnr)) := by
  simp only [slabFree, hcheck, ok_bind, pure_eq_ok, hobjnr, relist, home_returned _ hne]

/-- One page changes hands: its slab is new or rewritten, and only its objects are given
out or taken back. -/
structure Changed (c c' : Client) (page : Nat) : Prop where
  caches : c'.caches = c.caches
  pages : ∀ q, q ∈ c'.mm.pages ↔ q = page ∨ q ∈ c.mm.pages
  slab : ∀ q, q ≠ page → c'.mm.slab q = c.mm.slab q
  objsz : ∀ cachep, (c'.mm.cache cachep).objsz = (c.mm.cache cachep).objsz
  objcnt : ∀ cachep, (c'.mm.cache cachep).objcnt = (c.mm.cache cachep).objcnt
  nodup : ∀ cachep, Known c cachep → ∀ w, ((c'.mm.cache cachep).lists w).Nodup
  mem : ∀ cachep, Known c cachep → ∀ w q, q ∈ (c'.mm.cache cachep).lists w ↔
    if q = page then (c'.mm.slab page).cache = cachep ∧ home (c'.mm.slab page) = w
    else q ∈ (c.mm.cache cachep).lists w
  live : ∀ objp, pageOf objp ≠ page → (objp ∈ c'.live ↔ objp ∈ c.live)

section Changed

variable {c' : Client} {page : Nat}

theorem Changed.known (hch : Changed c c' page) {cachep : CachePtr} :
    Known c' cachep ↔ Known c cachep := by
  simp only [Known, hch.caches]

theorem Changed.cacheOk (h : Inv c) (hch : Changed c c' page) {cachep : CachePtr}
    (hk : Known c cachep) : CacheOk c' cachep := by
  have hcache := h.caches cachep hk
  refine ⟨by rw [hch.objsz]; exact hcache.objsz, by rw [hch.objcnt, hch.objsz]; exact hcache.objcnt,
    by rw [hch.objcnt]; exact hcache.pos, hch.nodup cachep hk, fun w q => ?_⟩
  rw [hch.mem cachep hk, hch.pages]
  by_cases hq : q = page
  · simp [hq]
  · rw [if_neg hq, hcache.mem, hch.slab q hq]
    simp [hq]

theorem Changed.slabOk (h : Inv c) (hch : Changed c c' page) {q : Nat} (hq : q ∈ c.mm.pages)
    (hne : q ≠ page) : SlabOk c' q := by
  have hslab := h.slabs q hq
  obtain ⟨l, hchain, hmem, hlen⟩ := hslab.chain
  have hsz : slabObjsz c' q = slabObjsz c q := by rw [slabObjsz, hch.slab q hne, hch.objsz]; rfl
  have hcnt : slabObjcnt c' q = slabObjcnt c q := by rw [slabObjcnt, hch.slab q hne, hch.objcnt]; rfl
  refine ⟨hslab.aligned, hslab.nonzero, by rw [hch.slab q hne]; exact hslab.data,
    by rw [hch.slab q hne]; exact hch.known.mpr hslab.known,
    l, by rw [hch.slab q hne]; exact hchain, fun i => ?_, by rw [hch.slab q hne, hcnt]; exact hlen⟩
  rw [hmem, hcnt, hsz]
  refine and_congr_right fun hi => not_congr (hch.live _ ?_).symm
  rwa [h.pageOf_obj hq hi]

/-- The invariant needs to be shown again for the changed page only. -/
theorem Changed.inv (h : Inv c) (hch : Changed c c' page) (hok : SlabOk c' page)
    (hhomes : ∀ addr, .object addr ∈ c.caches →
      addr ∈ c'.live ∧ (c'.mm.slab (pageOf addr)).cache = .cacheCache)
    (hlive : ∀ objp ∈ c'.live, pageOf objp = page →
      ∃ i < slabObjcnt c' page, objp = page + i * slabObjsz c' page)
    (hnodup : c'.live.Nodup) : Inv c' where
  caches cachep hk := hch.cacheOk h (hch.known.mp hk)
  slabs q hq := by
    by_cases hne : q = page
    · exact hne ▸ hok
    · exact hch.slabOk h (((hch.pages q).mp hq).resolve_left hne) hne
  homes addr haddr := hhomes addr (hch.caches ▸ haddr)
  live objp hobjp := by
    by_cases hpage : pageOf objp = page
    · rw [hpage]
      exact ⟨(hch.pages page).mpr (.inl rfl), hlive objp hobjp hpage⟩
    · obtain ⟨hmem, i, hi, heq⟩ := h.live objp ((hch.live objp hpage).mp hobjp)
      refine ⟨(hch.pages _).mpr (.inr hmem), i, ?_, ?_⟩
      · rw [slabObjcnt, hch.slab _ hpage, hch.objcnt]
        exact hi
      · rw [slabObjsz, hch.slab _ hpage, hch.objsz]
        exact heq
  liveNodup := hnodup

end Changed

/-- Rewriting the record of an existing slab of the same cache. -/
theorem Inv.changed_relist (h : Inv c) {page : Nat} (hpage : page ∈ c.mm.pages) {sl : Slab}
    {live : List Nat} (hlive : ∀ objp, pageOf objp ≠ page → (objp ∈ live ↔ objp ∈ c.live)) :
    Changed c ⟨relist c.mm page sl, c.caches, live⟩ page where
  caches := rfl
  pages q := by
    simp only [relist_pages]
    exact ⟨.inr, fun hq => hq.elim (fun heq => heq ▸ hpage) id⟩
  slab q hq := relist_slab_of_ne _ _ _ hq
  objsz := relist_objsz _ _ _
  objcnt := relist_objcnt _ _ _
  nodup cachep hk w := by
    have hnd := (h.caches cachep hk).nodup w
    rw [relist_lists]
    split_ifs
    · exact List.nodup_cons.mpr ⟨hnd.not_mem_erase, hnd.erase _⟩
    · exact hnd.erase _
  mem cachep hk w q := by
    have hnd := (h.caches cachep hk).nodup w
    simp only [relist_lists, relist_slab_self]
    by_cases hq : q = page
    · rw [if_pos hq, hq]
      split_ifs with hhome
      · simp [hhome.1, hhome.2]
      · simp only [hnd.not_mem_erase, false_iff]
        exact fun hx => hhome ⟨hx.1.symm, hx.2.symm⟩
    · rw [if_neg hq]
      split_ifs
      · simp [hq, List.mem_erase_of_ne hq]
      · exact List.mem_erase_of_ne hq
  live := hlive

/-! ## Allocation and free -/

theorem Inv.obj_inj (h : Inv c) {page i j : Nat} (hpage : page ∈ c.mm.pages) :
    page + i * slabObjsz c page = page + j * slabObjsz c page ↔ i = j := by
  have hpos : 0 < slabObjsz c page := by
    have := (h.cacheOk hpage).objsz
    simp only [slabObjsz]
    omega
  rw [Nat.add_left_cancel_iff, Nat.mul_left_inj hpos.ne']

theorem Inv.home_live (h : Inv c) {mm : SlabState} {live : List Nat}
    (hslab : ∀ q, (mm.slab q).cache = (c.mm.slab q).cache)
    (hkeep : ∀ addr, .object addr ∈ c.caches → addr ∈ live) (addr : Nat)
    (haddr : .object addr ∈ c.caches) :
    addr ∈ live ∧ (mm.slab (pageOf addr)).cache = .cacheCache :=
  ⟨hkeep addr haddr, (hslab _).trans (h.homes addr haddr).2⟩

theorem relist_slab_cache (s : SlabState) (page : Nat) (sl : Slab)
    (hcache : sl.cache = (s.slab page).cache) (q : Nat) :
    ((relist s page sl).slab q).cache = (s.slab q).cache := by
  by_cases hq : q = page
  · rw [hq, relist_slab_self, hcache]
  · rw [relist_slab_of_ne _ _ _ hq]

theorem slabObj_relist (h : Inv c) {page : Nat} (hpage : page ∈ c.mm.pages) (objnr : Nat)
    {sl : Slab} (hcache : sl.cache = (c.mm.slab page).cache)
    (hdata : sl.data = (c.mm.slab page).data) :
    slabObj (relist c.mm page sl) objnr page = page + objnr * slabObjsz c page := by
  simp only [slabObj, relist_slab_self, relist_objsz, hcache, hdata, (h.slabs page hpage).data,
    slabObjsz]

/-- Rewriting a slab's record and chain, with the objects given out or taken back in
accordance, keeps the invariant. -/
theorem Inv.relist (h : Inv c) {page : Nat} (hpage : page ∈ c.mm.pages) {sl : Slab}
    {live l : List Nat} (hcache : sl.cache = (c.mm.slab page).cache)
    (hdata : sl.data = (c.mm.slab page).data)
    (hother : ∀ objp, pageOf objp ≠ page → (objp ∈ live ↔ objp ∈ c.live))
    (hown : ∀ objp ∈ live, pageOf objp = page →
      ∃ i < slabObjcnt c page, objp = page + i * slabObjsz c page)
    (hkeep : ∀ addr, .object addr ∈ c.caches → addr ∈ live) (hnodup : live.Nodup)
    (hchain : Chain sl.bufctl bufctlEnd sl.free l)
    (hmem : ∀ i, i ∈ l ↔ i < slabObjcnt c page ∧ page + i * slabObjsz c page ∉ live)
    (hlen : l.length + sl.inuse = slabObjcnt c page) :
    Inv ⟨SlabSafety.relist c.mm page sl, c.caches, live⟩ := by
  have hslab := h.slabs page hpage
  have hcnt : slabObjcnt ⟨SlabSafety.relist c.mm page sl, c.caches, live⟩ page =
      slabObjcnt c page := by
    simp only [slabObjcnt, relist_slab_self, relist_objcnt, hcache]
  have hsz : slabObjsz ⟨SlabSafety.relist c.mm page sl, c.caches, live⟩ page =
      slabObjsz c page := by
    simp only [slabObjsz, relist_slab_self, relist_objsz, hcache]
  refine (h.changed_relist hpage hother).inv h ⟨hslab.aligned, hslab.nonzero, ?_, ?_, l, ?_, ?_, ?_⟩
    ?_ ?_ hnodup
  · rw [relist_slab_self, hdata, hslab.data]
  · rw [relist_slab_self, hcache]
    exact hslab.known
  · rw [relist_slab_self]
    exact hchain
  · rw [hcnt, hsz]
    exact hmem
  · rw [relist_slab_self, hcnt]
    exact hlen
  · exact h.home_live (relist_slab_cache _ _ _ hcache) hkeep
  · rw [hcnt, hsz]
    exact hown

/-- Taking the first object of a slab's free chain. -/
theorem Inv.slabAlloc (h : Inv c) {page : Nat} (hpage : page ∈ c.mm.pages)
    (hfree : (c.mm.slab page).free ≠ bufctlEnd) :
    ∃ objp mm, slabAlloc c.mm page = .ok (objp, mm) ∧ objp ∉ c.live ∧ pageOf objp = page ∧
      (∀ q, (mm.slab q).cache = (c.mm.slab q).cache) ∧ Inv ⟨mm, c.caches, objp :: c.live⟩ := by
  obtain ⟨l, hchain, hmem, hlen⟩ := (h.slabs page hpage).chain
  have hnodup := hchain.nodup
  obtain ⟨l', rfl, htail⟩ := hchain.eq_cons hfree
  obtain ⟨hlt, hdead⟩ := (hmem _).mp (List.mem_cons_self ..)
  set objp := page + (c.mm.slab page).free * slabObjsz c page with hobjp
  have hobj : pageOf objp = page := h.pageOf_obj hpage hlt
  have hcall : SlabCache.slabAlloc c.mm page =
      .ok (objp, SlabSafety.relist c.mm page (c.mm.slab page).taken) := by
    rw [slabAlloc_eq hfree (h.checkSlab hpage), slabObj_relist h hpage _ (taken_cache _) (taken_data _)]
  refine ⟨objp, _, hcall, hdead, hobj, relist_slab_cache _ _ _ (taken_cache _),
    h.relist hpage (taken_cache _) (taken_data _) (fun a ha => ?_) (fun a ha hap => ?_) (fun a ha => ?_) ?_ htail (fun i => ?_) ?_⟩
  · have hne : a ≠ objp := fun heq => ha (heq ▸ hobj)
    simp [hne]
  · rcases List.mem_cons.mp ha with rfl | ha
    · exact ⟨_, hlt, rfl⟩
    · have := (h.live a ha).2
      rwa [hap] at this
  · exact List.mem_cons_of_mem _ (h.homes a ha).1
  · exact List.nodup_cons.mpr ⟨hdead, h.liveNodup⟩
  · have hi := hmem i
    rw [List.mem_cons] at hi
    have hfresh := (List.nodup_cons.mp hnodup).1
    rw [List.mem_cons, hobjp, h.obj_inj hpage]
    constructor
    · intro hil
      have hne : i ≠ (c.mm.slab page).free := fun heq => hfresh (heq ▸ hil)
      obtain ⟨hlt', hdead'⟩ := hi.mp (.inr hil)
      exact ⟨hlt', fun hx => hx.elim hne hdead'⟩
    · rintro ⟨hlt', hnot⟩
      rw [not_or] at hnot
      exact (hi.mpr ⟨hlt', hnot.2⟩).resolve_left hnot.1
  · simp only [List.length_cons] at hlen
    simp only [Slab.taken]
    omega

/-- _slab_free finds the number an object was handed out under. -/
theorem Inv.slabObjnr (h : Inv c) {page i : Nat} (hpage : page ∈ c.mm.pages)
    (hi : i < slabObjcnt c page) :
    slabObjnr c.mm (page + i * slabObjsz c page) = .ok i := by
  have hsz : slabObjsz c page ≠ 0 := by
    have hle := (h.cacheOk hpage).objsz
    simp only [slabObjsz]
    omega
  rw [SlabCache.slabObjnr, h.pageOf_obj hpage hi, (h.slabs page hpage).data]
  show (access (slabObjsz c page ≠ 0) _ >>= fun _ => _) = _
  rw [access_pos hsz, ok_bind, Nat.add_sub_cancel_left]
  exact congrArg Except.ok (Nat.mul_div_cancel i (Nat.pos_of_ne_zero hsz))

/-- Putting a live object back in front of its slab's free chain. -/
theorem Inv.slabFree (h : Inv c) {objp : Nat} (hobjp : objp ∈ c.live)
    (hkeep : .object objp ∉ c.caches) :
    ∃ mm, slabFree c.mm objp = .ok mm ∧ Inv ⟨mm, c.caches, c.live.erase objp⟩ := by
  obtain ⟨hpage, i, hi, heq⟩ := h.live objp hobjp
  have hslab := h.slabs _ hpage
  have hcacheOk := h.cacheOk hpage
  obtain ⟨l, hchain, hmem, hlen⟩ := hslab.chain
  have hsmall : slabObjcnt c (pageOf objp) ≤ 509 := by
    rw [slabObjcnt, hcacheOk.objcnt]
    exact objcntOf_le hcacheOk.objsz
  have hil : i ∉ l := fun hil => ((hmem i).mp hil).2 (heq ▸ hobjp)
  -- the object that comes back has kept its slab from being full of free ones
  have hroom : l.length + 1 ≤ slabObjcnt c (pageOf objp) := by
    have hsub : i :: l ⊆ List.range (slabObjcnt c (pageOf objp)) := by
      intro j hj
      rcases List.mem_cons.mp hj with rfl | hj
      · exact List.mem_range.mpr hi
      · exact List.mem_range.mpr ((hmem j).mp hj).1
    have hle := ((List.nodup_cons.mpr ⟨hil, hchain.nodup⟩).subperm hsub).length_le
    simpa using hle
  have hpred : pred32 (c.mm.slab (pageOf objp)).inuse = (c.mm.slab (pageOf objp)).inuse - 1 :=
    pred32_of_pos (by omega)
  have hend : i ≠ bufctlEnd := by
    simp only [bufctlEnd]
    omega
  have hobjnr : SlabCache.slabObjnr c.mm objp = .ok i := by
    have hnr := h.slabObjnr hpage hi
    rwa [← heq] at hnr
  refine ⟨_, slabFree_eq (h.checkSlab hpage) hend hobjnr, h.relist hpage
    (returned_cache ..) (returned_data ..) (fun a ha => ?_) (fun a ha hap => ?_) (fun a ha => ?_) (h.liveNodup.erase _)
    (hchain.push hil hend) (fun j => ?_) ?_⟩
  · exact List.mem_erase_of_ne fun heq => ha (heq ▸ rfl)
  · have := (h.live a (List.mem_of_mem_erase ha)).2
    rwa [hap] at this
  · have hne : a ≠ objp := fun heq => hkeep (heq ▸ ha)
    exact (List.mem_erase_of_ne hne).mpr (h.homes a ha).1
  · rw [List.mem_cons, hmem j, h.liveNodup.mem_erase_iff]
    by_cases hji : j = i
    · subst hji
      simp [hi, ← heq]
    · have hne : pageOf objp + j * slabObjsz c (pageOf objp) ≠ objp := by
        intro h'
        exact hji ((h.obj_inj hpage).mp (h'.trans heq))
      simp [hji, hne]
  · simp only [List.length_cons, Slab.returned, hpred]
    omega

/-! ## New slabs -/

theorem fillBufctl_apply (n i : Nat) (bufctl : Nat → Nat) (j : Nat) :
    fillBufctl n i bufctl j = if i ≤ j ∧ j < i + n then j + 1 else bufctl j := by
  induction n generalizing i bufctl with
  | zero =>
    rw [fillBufctl, if_neg (by omega)]
  | succ n ih =>
    rw [fillBufctl, ih, Function.update_apply]
    split_ifs <;> first | rfl | omega

/-- The chain _create_slab writes visits every object in order. -/
theorem chain_fillBufctl {n : Nat} (hpos : 1 ≤ n) (hn : n ≤ bufctlEnd) :
    Chain (Function.update (fillBufctl n 0 fun _ => 0) (n - 1) bufctlEnd) bufctlEnd 0
      (List.range n) := by
  have hchain : ∀ m i, i + (m + 1) = n →
      Chain (Function.update (fillBufctl n 0 fun _ => 0) (n - 1) bufctlEnd) bufctlEnd i
        (List.range' i (m + 1)) := by
    intro m
    induction m with
    | zero =>
      intro i hi
      have hlast : i = n - 1 := by omega
      refine ⟨rfl, by omega, ?_⟩
      rw [hlast, Function.update_self]
      rfl
    | succ m ih =>
      intro i hi
      refine ⟨rfl, by omega, ?_⟩
      rw [Function.update_of_ne (by omega), fillBufctl_apply, if_pos (by omega)]
      exact ih (i + 1) (by omega)
  obtain ⟨m, rfl⟩ := Nat.exists_eq_add_of_le' hpos
  rw [List.range_eq_range']
  exact hchain m 0 (by omega)

/-- The state after a cache has taken a new page. -/
def grown (s : SlabState) (cachep : CachePtr) (page : Nat) : SlabState :=
  listAdd (setSlab { s with pages := page :: s.pages } page
    (newSlab cachep (s.cache cachep).objcnt page)) page cachep .slabsFree

section Grown

variable (s : SlabState) (cachep : CachePtr) (page : Nat)

@[simp] theorem grown_slab_self :
    (grown s cachep page).slab page = newSlab cachep (s.cache cachep).objcnt page :=
  Function.update_self ..

theorem grown_slab_of_ne {q : Nat} (h : q ≠ page) : (grown s cachep page).slab q = s.slab q :=
  Function.update_of_ne h ..

@[simp] theorem grown_objsz (c' : CachePtr) :
    ((grown s cachep page).cache c').objsz = (s.cache c').objsz := by
  simp only [grown, listAdd, setCache, setSlab, Function.update_apply]
  split_ifs with h <;> simp [h]

@[simp] theorem grown_objcnt (c' : CachePtr) :
    ((grown s cachep page).cache c').objcnt = (s.cache c').objcnt := by
  simp only [grown, listAdd, setCache, setSlab, Function.update_apply]
  split_ifs with h <;> simp [h]

theorem grown_lists (c' : CachePtr) (w : SlabList) :
    ((grown s cachep page).cache c').lists w =
      if c' = cachep ∧ w = .slabsFree then page :: (s.cache c').lists w
      else (s.cache c').lists w := by
  simp only [grown, listAdd, setCache, setSlab, Function.update_apply]
  split_ifs <;> simp_all

end Grown

theorem Inv.changed_grown (h : Inv c) (cachep : CachePtr) {page : Nat} (hnew : page ∉ c.mm.pages) :
    Changed c ⟨grown c.mm cachep page, c.caches, c.live⟩ page where
  caches := rfl
  pages q := List.mem_cons
  slab q hq := grown_slab_of_ne _ _ _ hq
  objsz := grown_objsz _ _ _
  objcnt := grown_objcnt _ _ _
  nodup c' hk w := by
    have hmem : page ∉ (c.mm.cache c').lists w := fun hmem =>
      hnew (((h.caches c' hk).mem w page).mp hmem).1
    rw [grown_lists]
    split_ifs
    · exact List.nodup_cons.mpr ⟨hmem, (h.caches c' hk).nodup w⟩
    · exact (h.caches c' hk).nodup w
  mem c' hk w q := by
    have hmem : page ∉ (c.mm.cache c').lists w := fun hmem =>
      hnew (((h.caches c' hk).mem w page).mp hmem).1
    have hhome : home (newSlab cachep (c.mm.cache cachep).objcnt page) = .slabsFree := rfl
    have hcache : (newSlab cachep (c.mm.cache cachep).objcnt page).cache = cachep := rfl
    simp only [grown_lists, grown_slab_self, hhome, hcache]
    by_cases hq : q = page
    · rw [if_pos hq, hq]
      split_ifs with hx
      · simp [hx.1, hx.2]
      · simp only [hmem, false_iff]
        exact fun hy => hx ⟨hy.1.symm, hy.2.symm⟩
    · rw [if_neg hq]
      split_ifs <;> simp [hq]
  live _ _ := Iff.rfl

theorem Inv.grown (h : Inv c) {cachep : CachePtr} (hk : Known c cachep) {page : Nat}
    (hfresh : Fresh c.mm page) : Inv ⟨grown c.mm cachep page, c.caches, c.live⟩ := by
  have hcache := h.caches cachep hk
  obtain ⟨haligned, hnonzero, -, hnew⟩ := hfresh
  have hsmall := objcntOf_le hcache.objsz
  rw [← hcache.objcnt] at hsmall
  have hlen : slabObjcnt ⟨SlabSafety.grown c.mm cachep page, c.caches, c.live⟩ page =
      (c.mm.cache cachep).objcnt := by
    simp only [slabObjcnt, grown_slab_self, grown_objcnt, newSlab]
  have hsz : slabObjsz ⟨SlabSafety.grown c.mm cachep page, c.caches, c.live⟩ page =
      (c.mm.cache cachep).objsz := by
    simp only [slabObjsz, grown_slab_self, grown_objsz, newSlab]
  refine (h.changed_grown cachep hnew).inv h ⟨haligned, hnonzero, ?_, ?_,
    List.range (c.mm.cache cachep).objcnt, ?_, fun i => ?_, ?_⟩ (fun addr haddr => ?_)
    (fun objp hobjp hpage => ?_) h.liveNodup
  · rw [grown_slab_self]
    rfl
  · rw [grown_slab_self]
    exact hk
  · rw [grown_slab_self]
    exact chain_fillBufctl hcache.pos (hsmall.trans (by decide))
  · -- nobody can hold an object of a page that was never taken
    rw [hlen, hsz, List.mem_range]
    refine ⟨fun hi => ⟨hi, fun hlive => ?_⟩, And.left⟩
    have hfit := objects_fit (hcache.objcnt ▸ hi)
    have hpage : pageOf (page + i * (c.mm.cache cachep).objsz) = page := by
      refine pageOf_add haligned ?_
      simp only [sizeofSlab] at hfit
      omega
    exact hnew (hpage ▸ (h.live _ hlive).1)
  · rw [grown_slab_self, hlen, List.length_range]
    rfl
  · obtain ⟨hlive, hhome⟩ := h.homes addr haddr
    have hne : pageOf addr ≠ page := fun heq => hnew (heq ▸ (h.live addr hlive).1)
    refine ⟨hlive, ?_⟩
    rw [grown_slab_of_ne _ _ _ hne]
    exact hhome
  · exact absurd (hpage ▸ (h.live objp hobjp).1) hnew

theorem Inv.createSlab (h : Inv c) {cachep : CachePtr} (hk : Known c cachep) {page : Nat}
    (hfresh : Fresh c.mm page) :
    createSlab c.mm cachep page = .ok (SlabSafety.grown c.mm cachep page) := by
  have hpos : 0 < (c.mm.cache cachep).objcnt := (h.caches cachep hk).pos
  have hcheck := (h.grown hk hfresh).checkSlab (List.mem_cons_self ..)
  simp only [SlabSafety.grown] at hcheck ⊢
  simp only [SlabCache.createSlab, h.checkCache hk, allocZeroedPage, access_pos hfresh, ok_bind,
    pure_eq_ok, access_pos hpos, hcheck]

/-- kmem_cache_alloc succeeds on every cache, with an object nobody holds. -/
theorem Inv.kmemCacheAlloc (h : Inv c) {cachep : CachePtr} (hk : Known c cachep) {page : Nat}
    (hfresh : Fresh c.mm page) :
    ∃ objp mm, kmemCacheAlloc c.mm cachep page = .ok (objp, mm) ∧ objp ∉ c.live ∧
      (mm.slab (pageOf objp)).cache = cachep ∧ Inv ⟨mm, c.caches, objp :: c.live⟩ := by
  have hcache := h.caches cachep hk
  simp only [SlabCache.kmemCacheAlloc, h.checkCache hk, ok_bind]
  -- an existing slab that is not full
  have hexisting : ∀ w slab, slab ∈ (c.mm.cache cachep).lists w → w ≠ .slabsFull →
      ∃ objp mm, SlabCache.slabAlloc c.mm slab = .ok (objp, mm) ∧ objp ∉ c.live ∧
        (mm.slab (pageOf objp)).cache = cachep ∧ Inv ⟨mm, c.caches, objp :: c.live⟩ := by
    intro w slab hmem hw
    obtain ⟨hpage, hc, hhome⟩ := (hcache.mem w slab).mp hmem
    have hfree : (c.mm.slab slab).free ≠ bufctlEnd := by
      intro hend
      obtain ⟨l, hchain, -, hlen⟩ := (h.slabs slab hpage).chain
      have hinuse : (c.mm.slab slab).inuse ≠ 0 := by
        have hpos := (h.cacheOk hpage).pos
        rw [(hchain.eq_nil_iff).mpr hend, List.length_nil, slabObjcnt] at hlen
        omega
      rw [home, if_neg hinuse, if_pos hend] at hhome
      exact hw hhome.symm
    obtain ⟨objp, mm, hcall, hdead, hobj, hcaches, hinv⟩ := h.slabAlloc hpage hfree
    exact ⟨objp, mm, hcall, hdead, by rw [hobj, hcaches, hc], hinv⟩
  split
  · rename_i slab rest hlist
    exact hexisting .slabsPartial slab (by simp [hlist]) (by decide)
  · split
    · rename_i slab rest hfree
      exact hexisting .slabsFree slab (by simp [hfree]) (by decide)
    · have hfree : ((SlabSafety.grown c.mm cachep page).slab page).free ≠ bufctlEnd := by
        rw [grown_slab_self]
        simp [newSlab, bufctlEnd]
      obtain ⟨objp, mm, hcall, hdead, hobj, hcaches, hinv⟩ :=
        (h.grown hk hfresh).slabAlloc (List.mem_cons_self ..) hfree
      refine ⟨objp, mm, ?_, hdead, ?_, hinv⟩
      · rw [h.createSlab hk hfresh]
        exact hcall
      · rw [hobj, hcaches, grown_slab_self]
        rfl

/-- A new cache starts empty, in an object of cache_cache. -/
theorem Inv.create (h : Inv c) {addr : Nat} {k : KmemCache} (hempty : ∀ w, k.lists w = [])
    (hsize : 4 ≤ k.objsz) (hobjcnt : k.objcnt = objcntOf k.objsz) (hpos : 1 ≤ k.objcnt)
    (hnew : .object addr ∉ c.caches) (haddr : addr ∈ c.live)
    (hhome : (c.mm.slab (pageOf addr)).cache = .cacheCache) :
    Inv ⟨setCache c.mm (.object addr) k, .object addr :: c.caches, c.live⟩ := by
  have hne : ∀ cachep, Known c cachep → cachep ≠ .object addr := by
    rintro cachep (rfl | hk) heq
    · cases heq
    · exact hnew (heq ▸ hk)
  have hcache : ∀ cachep, Known c cachep →
      (setCache c.mm (.object addr) k).cache cachep = c.mm.cache cachep := fun cachep hk =>
    Function.update_of_ne (hne cachep hk) ..
  have hslab : ∀ page ∈ c.mm.pages, (setCache c.mm (.object addr) k).cache
      (c.mm.slab page).cache = c.mm.cache (c.mm.slab page).cache := fun page hpage =>
    hcache _ (h.slabs page hpage).known
  have hweaken : ∀ cachep, Known c cachep →
      Known ⟨setCache c.mm (.object addr) k, .object addr :: c.caches, c.live⟩ cachep :=
    fun cachep hk => hk.imp_right (List.mem_cons_of_mem _)
  refine ⟨fun cachep hk => ?_, fun page hpage => ?_, fun a ha => ?_, fun objp hobjp => ?_,
    h.liveNodup⟩
  · by_cases hc : cachep = .object addr
    · have hself : (setCache c.mm (.object addr) k).cache cachep = k := by
        rw [hc]
        exact Function.update_self ..
      refine ⟨by simpa only [hself] using hsize, by simpa only [hself] using hobjcnt,
        by simpa only [hself] using hpos, fun w => ?_, fun w page => ?_⟩
      · simp only [hself, hempty, List.nodup_nil]
      · simp only [hself, hempty, List.not_mem_nil, false_iff]
        rintro ⟨hpage, hpc, -⟩
        exact hne _ (h.slabs page hpage).known (hpc.trans hc)
    · have hk' : Known c cachep := hk.imp_right fun hmem =>
        (List.mem_cons.mp hmem).resolve_left hc
      have hok := h.caches cachep hk'
      have heq := hcache cachep hk'
      exact ⟨heq ▸ hok.objsz, heq ▸ hok.objcnt, heq ▸ hok.pos, fun w => heq ▸ hok.nodup w,
        fun w page => heq ▸ hok.mem w page⟩
  · have hok := h.slabs page hpage
    refine ⟨hok.aligned, hok.nonzero, hok.data, hweaken _ hok.known, ?_⟩
    have hchain := hok.chain
    simp only [slabObjsz, slabObjcnt] at hchain ⊢
    rw [← hslab page hpage] at hchain
    exact hchain
  · rcases List.mem_cons.mp ha with heq | ha
    · rw [CachePtr.object.inj heq]
      exact ⟨haddr, hhome⟩
    · exact h.homes a ha
  · have hlive := h.live objp hobjp
    simp only [slabObjsz, slabObjcnt] at hlive ⊢
    rw [← hslab _ hlive.1] at hlive
    exact hlive

/-- A slab with room for an object is no larger than a page. -/
theorem objsz_le {objsz : Nat} (h : 1 ≤ objcntOf objsz) :
    objsz + sizeofBufctl + sizeofSlab ≤ pageSize := by
  have hfit := @objects_fit objsz 0 h
  have hmul : sizeofBufctl ≤ objcntOf objsz * sizeofBufctl := Nat.le_mul_of_pos_left _ h
  omega

/-- kmem_cache_create succeeds when the rounded size is one a page has room for. -/
theorem Inv.kmemCacheCreate (h : Inv c) {objsize page : Nat} (hsize : 4 ≤ align2 objsize)
    (hcnt : 1 ≤ objcntOf (align2 objsize)) (hfresh : Fresh c.mm page) :
    ∃ addr mm, kmemCacheCreate c.mm objsize page = .ok (addr, mm) ∧ addr ∉ c.live ∧
      Inv ⟨mm, .object addr :: c.caches, addr :: c.live⟩ := by
  obtain ⟨addr, mm, hcall, hdead, hhome, hinv⟩ := h.kmemCacheAlloc (.inl rfl) hfresh
  have hpos : objsize > 0 := by
    simp only [align2] at hsize
    omega
  have hsum : align2 objsize + sizeofBufctl < 2 ^ 32 := by
    have hle := objsz_le hcnt
    simp only [pageSize] at hle
    omega
  refine ⟨addr, _, ?_, hdead, hinv.create (fun _ => rfl) (k := ⟨fun _ => [], align2 objsize,
    objcntOf (align2 objsize)⟩) hsize rfl hcnt
    (fun hmem => hdead (h.homes addr hmem).1) (List.mem_cons_self ..) hhome⟩
  simp only [SlabCache.kmemCacheCreate, assert_pos hpos, hcall, ok_bind, access_pos hsum, pure_eq_ok]

theorem Inv.kmemCacheFree (h : Inv c) {cachep : CachePtr} {objp : Nat} (hc : cachep ∈ c.caches)
    (hobjp : objp ∈ c.live) (hslab : (c.mm.slab (pageOf objp)).cache = cachep)
    (hcaches : .cacheCache ∉ c.caches) :
    ∃ mm, kmemCacheFree c.mm cachep objp = .ok mm ∧ Inv ⟨mm, c.caches, c.live.erase objp⟩ := by
  have hkeep : .object objp ∉ c.caches := fun hmem =>
    hcaches ((h.homes objp hmem).2 ▸ hslab ▸ hc)
  have hnull : cachep ≠ .object 0 ∧ objp ≠ 0 := by
    have hpos : ∀ a ∈ c.live, a ≠ 0 := by
      intro a ha
      obtain ⟨hpage, i, -, heq⟩ := h.live a ha
      have := (h.slabs _ hpage).nonzero
      omega
    exact ⟨fun heq => hpos 0 (h.homes 0 (heq ▸ hc)).1 rfl, hpos objp hobjp⟩
  obtain ⟨mm, hcall, hinv⟩ := h.slabFree hobjp hkeep
  refine ⟨mm, ?_, hinv⟩
  simp only [SlabCache.kmemCacheFree, assert_pos hnull, ok_bind, hcall]

/-! ## Runs -/

theorem Inv.start (slab : Nat → Slab) (cache : CachePtr → KmemCache) : Inv (start slab cache) := by
  have hcache : (SlabSafety.start slab cache).mm.cache .cacheCache =
      ⟨fun _ => [], sizeofKmemCache, objcntOf sizeofKmemCache⟩ := by
    simp only [SlabSafety.start, init, Function.update_self]
  refine ⟨fun cachep hk => ?_, by simp [SlabSafety.start, init], by simp [SlabSafety.start],
    by simp [SlabSafety.start], List.nodup_nil⟩
  obtain rfl : cachep = .cacheCache := by simpa [Known, SlabSafety.start] using hk
  refine ⟨?_, ?_, ?_, fun w => ?_, fun w page => ?_⟩ <;> rw [hcache]
  · decide
  · decide
  · exact List.nodup_nil
  · simp [SlabSafety.start, init]

/-- Every call users may make succeeds and keeps the invariant; what an allocation hands
out was not live. -/
theorem Inv.call (h : Inv c) (hcaches : .cacheCache ∉ c.caches) {a : Call} (ha : Allowed c a) :
    ∃ c', c.call a = .ok c' ∧ Inv c' ∧ .cacheCache ∉ c'.caches := by
  cases a with
  | create objsize page =>
    obtain ⟨hsize, hmul, hcnt, hfresh⟩ := ha
    have halign : align2 objsize = objsize := by
      rw [align2, hmul, Nat.sub_zero]
    obtain ⟨addr, mm, hcall, -, hinv⟩ := h.kmemCacheCreate (by omega) (halign.symm ▸ hcnt) hfresh
    exact ⟨_, by simp only [Client.call, hcall, ok_bind, pure_eq_ok], hinv, by simp [hcaches]⟩
  | alloc cachep page =>
    obtain ⟨hc, hfresh⟩ := ha
    obtain ⟨objp, mm, hcall, -, -, hinv⟩ := h.kmemCacheAlloc (.inr hc) hfresh
    exact ⟨_, by simp only [Client.call, hcall, ok_bind, pure_eq_ok], hinv, hcaches⟩
  | free cachep objp =>
    obtain ⟨hc, hobjp, hslab⟩ := ha
    obtain ⟨mm, hcall, hinv⟩ := h.kmemCacheFree hc hobjp hslab hcaches
    exact ⟨_, by simp only [Client.call, hcall, ok_bind, pure_eq_ok], hinv, hcaches⟩

theorem Inv.step (h : Inv c ∧ .cacheCache ∉ c.caches) {a : Call} {c' : Client} (st : Step c a c') :
    Inv c' ∧ .cacheCache ∉ c'.caches := by
  obtain ⟨c'', hcall, hinv⟩ := h.1.call h.2 st.1
  rw [st.2, Except.ok.injEq] at hcall
  exact hcall ▸ hinv

/-- A slab in order: its free chain visits the objects nobody holds, once each, and it is on
one list of its cache, the one its fill demands. -/
structure InOrder (c : Client) (page : Nat) (chain : List Nat) : Prop where
  ends : Chain (c.mm.slab page).bufctl bufctlEnd (c.mm.slab page).free chain
  nodup : chain.Nodup
  length : chain.length + (c.mm.slab page).inuse = slabObjcnt c page
  free : ∀ i, i ∈ chain ↔ i < slabObjcnt c page ∧ slabObj c.mm i page ∉ c.live
  slabsFree : page ∈ (c.mm.cache (c.mm.slab page).cache).lists .slabsFree ↔
    (c.mm.slab page).inuse = 0
  slabsFull : page ∈ (c.mm.cache (c.mm.slab page).cache).lists .slabsFull ↔ chain = []
  slabsPartial : page ∈ (c.mm.cache (c.mm.slab page).cache).lists .slabsPartial ↔
    (c.mm.slab page).inuse ≠ 0 ∧ chain ≠ []
  once : ∀ cachep, Known c cachep → ∀ w, ((c.mm.cache cachep).lists w).count page =
    if cachep = (c.mm.slab page).cache ∧ w = home (c.mm.slab page) then 1 else 0

theorem Inv.inOrder (h : Inv c) {page : Nat} (hpage : page ∈ c.mm.pages) :
    ∃ chain, InOrder c page chain := by
  have hslab := h.slabs page hpage
  have hcache := h.cacheOk hpage
  obtain ⟨l, hchain, hmem, hlen⟩ := hslab.chain
  have hempty : (c.mm.slab page).free = bufctlEnd ↔ l = [] := hchain.eq_nil_iff.symm
  have hboth : ¬(l = [] ∧ (c.mm.slab page).inuse = 0) := by
    rintro ⟨rfl, hzero⟩
    have hpos := hcache.pos
    rw [List.length_nil, hzero, slabObjcnt] at hlen
    omega
  have hlist : ∀ w, page ∈ (c.mm.cache (c.mm.slab page).cache).lists w ↔
      home (c.mm.slab page) = w := fun w =>
    (hcache.mem w page).trans ⟨fun hx => hx.2.2, fun hx => ⟨hpage, rfl, hx⟩⟩
  refine ⟨l, hchain, hchain.nodup, hlen, fun i => ?_, ?_, ?_, ?_, fun cachep hk w => ?_⟩
  · rw [hmem, slabObj, hslab.data]
    rfl
  · rw [hlist, home]
    split_ifs with hzero <;> simp [hzero]
  · rw [hlist, home]
    split_ifs with hzero hend
    · simp only [false_iff]
      exact fun hnil => hboth ⟨hnil, hzero⟩
    · simp [hempty.mp hend]
    · simp [← hempty, hend]
  · rw [hlist, home]
    split_ifs with hzero hend
    · simp [hzero]
    · simp [hempty.mp hend]
    · simp [hzero, ← hempty, hend]
  · have hw := (h.caches cachep hk).mem w page
    split_ifs with hhome
    · exact List.count_eq_one_of_mem ((h.caches cachep hk).nodup w)
        (hw.mpr ⟨hpage, hhome.1.symm, hhome.2.symm⟩)
    · exact List.count_eq_zero.mpr fun hx => hhome ⟨(hw.mp hx).2.1.symm, (hw.mp hx).2.2.symm⟩

/-- In every reachable state each slab is in order and passes its check, no call users may
make fails an assertion, and no allocation hands out a live object. -/
theorem slab_allocator_safe (slab : Nat → Slab) (cache : CachePtr → KmemCache)
    (h : Reach Step (start slab cache) c) :
    (∀ page ∈ c.mm.pages, (∃ chain, InOrder c page chain) ∧ checkSlab c.mm page = .ok ()) ∧
    (∀ a, Allowed c a → ∃ c', c.call a = .ok c') ∧
    ∀ cachep page objp mm, Known c cachep → Fresh c.mm page →
      kmemCacheAlloc c.mm cachep page = .ok (objp, mm) →
        objp ∉ c.live ∧ (mm.slab (pageOf objp)).cache = cachep := by
  obtain ⟨hinv, hcaches⟩ : Inv c ∧ .cacheCache ∉ c.caches :=
    h.inv (fun _ _ _ hinv st => Inv.step hinv st) ⟨.start slab cache, by simp [start]⟩
  refine ⟨fun page hpage => ⟨hinv.inOrder hpage, hinv.checkSlab hpage⟩, fun a ha => ?_,
    fun cachep page objp mm hk hfresh hcall => ?_⟩
  · obtain ⟨c', hcall, -⟩ := hinv.call hcaches ha
    exact ⟨c', hcall⟩
  · obtain ⟨objp', mm', hcall', hdead, hslab, -⟩ := hinv.kmemCacheAlloc hk hfresh
    rw [hcall, Except.ok.injEq, Prod.mk.injEq] at hcall'
    rw [hcall'.1, hcall'.2]
    exact ⟨hdead, hslab⟩

/-- A cache of two objects a page: one slab fills up, a second one is begun, and the first
object comes back. -/
def twoObjectCalls : List Call :=
  [.create 2000 4096, .alloc (.object 4096) 8192, .alloc (.object 4096) 12288,
    .alloc (.object 4096) 12288, .free (.object 4096) 8192]

theorem slab_allocator_safe_two : ∃ c,
    Reach Step (start (fun _ => ⟨.cacheCache, 0, 0, 0, fun _ => 0⟩) fun _ => ⟨fun _ => [], 0, 0⟩) c ∧
      c.live = [12288, 10192, 4096] ∧ checkSlab c.mm 8192 = .ok () := by
  have hrun : (match twoObjectCalls.foldlM
      (fun c a => if Allowed c a then c.call a else .error (.fault "call"))
      (start (fun _ => ⟨.cacheCache, 0, 0, 0, fun _ => 0⟩) fun _ => ⟨fun _ => [], 0, 0⟩) with
      | .ok c => decide (c.live = [12288, 10192, 4096] ∧ 8192 ∈ c.mm.pages)
      | .error _ => false) = true := by
    decide +kernel
  split at hrun
  · rename_i c hc
    have hreach : Reach Step _ c := reach_of_foldlM (fun c a c' hcall => by
      split_ifs at hcall with ha
      exact ⟨ha, hcall⟩) hc
    obtain ⟨hlive, hpage⟩ := of_decide_eq_true hrun
    exact ⟨c, hreach, hlive, ((slab_allocator_safe _ _ hreach).1 8192 hpage).2⟩
  · exact absurd hrun (by simp)

end RxdOs.Mm.SlabSafety
