/- RxdOs/Mm/SlabCache
   source: mm/slab.c, include/mm.h (struct slab, struct kmem_cache)
   digest: The slab allocator: caches, their slabs, and the free chain stored in each slab. -/

import RxdOs.Base.Assert
import RxdOs.Lib.IndexChain

set_option autoImplicit false
set_option relaxedAutoImplicit false

namespace RxdOs.Mm.SlabCache

open RxdOs.Base.Assert RxdOs.Lib.IndexChain

def pageSize : Nat := 4096
def sizeofSlab : Nat := 24
def sizeofKmemCache : Nat := 48
def sizeofBufctl : Nat := 4
def bufctlEnd : Nat := 0xffffffff

/-- A `struct kmem_cache *`: the static `cache_cache`, or one of its objects.
`object 0` is NULL. -/
inductive CachePtr
  | cacheCache
  | object (addr : Nat)
  deriving DecidableEq

/-- `bufctl` is the index array below the structure: `slab_bufctl(objnr, slab)`. -/
structure Slab where
  cache : CachePtr
  data : Nat
  inuse : Nat
  free : Nat
  bufctl : Nat → Nat

/-- The three lists of a cache. -/
inductive SlabList
  | slabsPartial
  | slabsFull
  | slabsFree
  deriving DecidableEq

structure KmemCache where
  lists : SlabList → List Nat
  objsz : Nat
  objcnt : Nat

/-- Slabs lie at the end of their page and are named by its address; `pages` are the
pages alloc_zeroed_page has returned. -/
structure SlabState where
  slab : Nat → Slab
  cache : CachePtr → KmemCache
  pages : List Nat

/-- `addr & ~0xfff`, the page ADDR_TO_SLAB looks in. -/
def pageOf (addr : Nat) : Nat := addr - addr % pageSize

/-- `(PAGE_SIZE - sizeof(struct slab)) / (objsz + sizeof(kmem_bufctl_t))` -/
def objcntOf (objsz : Nat) : Nat := (pageSize - sizeofSlab) / (objsz + sizeofBufctl)

def setSlab (s : SlabState) (page : Nat) (slab : Slab) : SlabState :=
  { s with slab := Function.update s.slab page slab }

def setCache (s : SlabState) (cachep : CachePtr) (k : KmemCache) : SlabState :=
  { s with cache := Function.update s.cache cachep k }

/-- `slab_obj(objnr, slab)` -/
def slabObj (s : SlabState) (objnr page : Nat) : Nat :=
  (s.slab page).data + objnr * (s.cache (s.slab page).cache).objsz

/-- `list_del(&slab->list)`: off whatever list it is on. -/
def listDel (s : SlabState) (page : Nat) : SlabState :=
  { s with cache := fun c => { s.cache c with lists := fun w => ((s.cache c).lists w).erase page } }

/-- `list_add(&slab->list, head)` -/
def listAdd (s : SlabState) (page : Nat) (cachep : CachePtr) (w : SlabList) : SlabState :=
  let k := s.cache cachep
  setCache s cachep { k with lists := Function.update k.lists w (page :: k.lists w) }

def checkCache (s : SlabState) (cachep : CachePtr) : Kernel Unit := do
  assert (cachep ≠ .object 0) "cachep"
  have home := match cachep with
    | .cacheCache => true
    | .object addr => decide ((s.slab (pageOf addr)).cache = .cacheCache)
  assert (home = true) "(cachep == &cache_cache) || (ADDR_TO_SLAB(cachep)->cache == &cache_cache)"
  assert ((s.cache cachep).objcnt = objcntOf (s.cache cachep).objsz) "cachep->objcnt == ..."

/-- `while (next != BUFCTL_END)`.  A page has no room for 1024 indices, so a longer walk
is in a cycle, or off the page. -/
def countFree (bufctl : Nat → Nat) : Nat → Nat → Nat → Kernel Nat
  | 0, _, _ => .error (.fault "while (next != BUFCTL_END)")
  | fuel + 1, next, freecnt =>
    if next = bufctlEnd then pure freecnt else countFree bufctl fuel (bufctl next) (freecnt + 1)

def checkSlab (s : SlabState) (page : Nat) : Kernel Unit := do
  let slab := s.slab page
  assert ((page + pageSize) % pageSize = 0) "!((unsigned long)(slab + 1) & 0xfff)"
  assert (slab.data ≠ 0 ∧ slab.data % pageSize = 0)
    "slab->data && !((unsigned long)(slab->data) & 0xfff)"
  checkCache s slab.cache
  let freecnt ← countFree slab.bufctl 1024 slab.free 0
  assert (freecnt + slab.inuse = (s.cache slab.cache).objcnt)
    "(freecnt + slab->inuse) == cachep->objcnt"

/-- A page alloc_zeroed_page may return: a page of its own, in the address space. -/
def Fresh (s : SlabState) (page : Nat) : Prop :=
  page % pageSize = 0 ∧ page ≠ 0 ∧ page + pageSize ≤ 2 ^ 32 ∧ page ∉ s.pages

instance (s : SlabState) (page : Nat) : Decidable (Fresh s page) :=
  inferInstanceAs (Decidable (_ ∧ _))

/-- alloc_zeroed_page, with the page it happens to return. -/
def allocZeroedPage (s : SlabState) (page : Nat) : Kernel SlabState := do
  access (Fresh s page) "alloc_zeroed_page"
  pure { s with pages := page :: s.pages }

/-- `*(--bufctl) = i + 1` for `n` objects from the `i`-th on. -/
def fillBufctl : Nat → Nat → (Nat → Nat) → Nat → Nat
  | 0, _, bufctl => bufctl
  | n + 1, i, bufctl => fillBufctl n (i + 1) (Function.update bufctl i (i + 1))

/-- A slab as _create_slab fills it in. -/
def newSlab (cachep : CachePtr) (objcnt page : Nat) : Slab where
  cache := cachep
  data := page
  inuse := 0
  free := 0
  bufctl := Function.update (fillBufctl objcnt 0 fun _ => 0) (objcnt - 1) bufctlEnd

/-- _create_slab; the constructor call writes to the objects only. -/
def createSlab (s : SlabState) (cachep : CachePtr) (page : Nat) : Kernel SlabState := do
  checkCache s cachep
  let s ← allocZeroedPage s page
  let objcnt := (s.cache cachep).objcnt
  -- with no object at all the last store would hit the slab itself
  access (0 < objcnt) "*bufctl = BUFCTL_END"
  let s := setSlab s page (newSlab cachep objcnt page)
  let s := listAdd s page cachep .slabsFree
  checkSlab s page
  pure s

/-- "fix slab position in cache", after an allocation. -/
def listAfterAlloc (free : Nat) : SlabList := if free = bufctlEnd then .slabsFull else .slabsPartial

/-- "fix slab position in cache", after a free. -/
def listAfterFree (inuse : Nat) : SlabList := if inuse = 0 then .slabsFree else .slabsPartial

/-- "remove obj from free list" -/
def Slab.taken (slab : Slab) : Slab :=
  { slab with free := slab.bufctl slab.free, inuse := slab.inuse + 1 }

def slabAlloc (s : SlabState) (page : Nat) : Kernel (Nat × SlabState) := do
  assert ((s.slab page).free ≠ bufctlEnd) "slab->free != BUFCTL_END"
  checkSlab s page
  let objnr := (s.slab page).free
  let slab := (s.slab page).taken
  let s := listDel (setSlab s page slab) page
  let s := listAdd s page slab.cache (listAfterAlloc slab.free)
  pure (slabObj s objnr page, s)

/-- `--n` on an unsigned int. -/
def pred32 (n : Nat) : Nat := if n = 0 then 2 ^ 32 - 1 else n - 1

/-- "add obj to free list" -/
def Slab.returned (slab : Slab) (objnr : Nat) : Slab :=
  { slab with
    bufctl := Function.update slab.bufctl objnr slab.free, free := objnr
    inuse := pred32 slab.inuse }

/-- `(objp - (void *)slab->data) / slab->cache->objsz` -/
def slabObjnr (s : SlabState) (objp : Nat) : Kernel Nat := do
  let slab := s.slab (pageOf objp)
  access ((s.cache slab.cache).objsz ≠ 0) "/ slab->cache->objsz"
  pure ((objp - slab.data) / (s.cache slab.cache).objsz)

def slabFree (s : SlabState) (objp : Nat) : Kernel SlabState := do
  let page := pageOf objp
  checkSlab s page
  let objnr ← slabObjnr s objp
  let slab := (s.slab page).returned objnr
  let s := listDel (setSlab s page slab) page
  pure (listAdd s page slab.cache (listAfterFree slab.inuse))

/-- `page` is used when the cache needs a new slab. -/
def kmemCacheAlloc (s : SlabState) (cachep : CachePtr) (page : Nat) :
    Kernel (Nat × SlabState) := do
  checkCache s cachep
  match (s.cache cachep).lists .slabsPartial with
  | slab :: _ => slabAlloc s slab
  | [] =>
    match (s.cache cachep).lists .slabsFree with
    | slab :: _ => slabAlloc s slab
    | [] =>
      let s ← createSlab s cachep page
      slabAlloc s page

def kmemCacheFree (s : SlabState) (cachep : CachePtr) (objp : Nat) : Kernel SlabState := do
  assert (cachep ≠ .object 0 ∧ objp ≠ 0) "cachep && objp"
  slabFree s objp

/-- `__align(objsize, 2)` is `objsize & ~3`. -/
def align2 (objsize : Nat) : Nat := objsize - objsize % 4

/-- The address returned is that of the new cache. -/
def kmemCacheCreate (s : SlabState) (objsize page : Nat) : Kernel (Nat × SlabState) := do
  assert (objsize > 0) "name && objsize > 0"
  let (cachep, s) ← kmemCacheAlloc s .cacheCache page
  let objsz := align2 objsize
  -- the unsigned sum is 0 for the largest sizes
  access (objsz + sizeofBufctl < 2 ^ 32) "/ (cachep->objsz + sizeof(kmem_bufctl_t))"
  pure (cachep, setCache s (.object cachep) ⟨fun _ => [], objsz, objcntOf objsz⟩)

/-- The static initialiser of `cache_cache`, over whatever memory holds elsewhere. -/
def init (slab : Nat → Slab) (cache : CachePtr → KmemCache) : SlabState where
  slab := slab
  cache := Function.update cache .cacheCache
    ⟨fun _ => [], sizeofKmemCache, objcntOf sizeofKmemCache⟩
  pages := []

end RxdOs.Mm.SlabCache
