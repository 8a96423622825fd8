/- RxdOs/Mm/SlabDestroy
   source: mm/slab.c (kmem_cache_createx, kmem_cache_destroy, _destroy_slab)
   digest: What kmem_cache_destroy gives back: the slab pages and the place on the chain, and
   never the descriptor of the cache. -/

import RxdOs.Mm.SlabGeometry

set_option autoImplicit false
set_option relaxedAutoImplicit false

namespace RxdOs.Mm.SlabDestroy

open RxdOs.Base.Assert RxdOs.Lib.Execution RxdOs.Lib.IndexChain RxdOs.Mm.SlabCache
  RxdOs.Mm.SlabSafety RxdOs.Mm.SlabGeometry

/-- free_page on one of the slab pages. -/
def freePage (s : SlabState) (page : Nat) : Kernel SlabState := do
  access (page ∈ s.pages) "free_page"
  pure { s with pages := s.pages.filter (· ≠ page) }

/-- _destroy_slab -/
def destroySlab (s : SlabState) (page : Nat) : Kernel SlabState := do
  assert ((s.slab page).inuse = 0) "slab->inuse == 0"
  checkSlab s page
  let s := listDel s page
  freePage s (s.slab page).data

/-- `while (!list_empty(&cachep->slabs_free))` -/
def destroyLoop (cachep : CachePtr) : Nat → SlabState → Kernel SlabState
  | 0, _ => .error (.fault "while (!list_empty(&cachep->slabs_free))")
  | fuel + 1, s =>
    match (s.cache cachep).lists .slabsFree with
    | [] => pure s
    | slab :: _ => do
      let s ← destroySlab s slab
      destroyLoop cachep fuel s

/-- The allocator and its users with cache_chain. -/
structure Heap where
  client : Client
  cacheChain : List CachePtr

/-- kmem_cache_createx; list_add puts the new cache in front. -/
def kmemCacheCreatex (h : Heap) (objsize page : Nat) : Kernel (Nat × Heap) := do
  let (addr, mm) ← kmemCacheCreate h.client.mm objsize page
  pure (addr, ⟨withCache h.client addr mm, .object addr :: h.cacheChain⟩)

/-- kmem_cache_destroy.  The users forget the cache; its descriptor stays where it is. -/
def kmemCacheDestroy (h : Heap) (cachep : CachePtr) : Kernel (Int × Heap) := do
  assert (cachep ≠ .object 0) "cachep"
  let k := h.client.mm.cache cachep
  if k.lists .slabsPartial ≠ [] ∨ k.lists .slabsFull ≠ [] then
    .error (.panic "can't destroy cache '%s', it's in use.\n")
  else do
    let mm ← destroyLoop cachep ((k.lists .slabsFree).length + 1) h.client.mm
    pure (0, ⟨⟨mm, h.client.caches.filter (· ≠ cachep), h.client.live⟩, h.cacheChain.erase cachep⟩)

/-! ## Runs -/

/-- Nobody holds an object of the cache. -/
def Drained (c : Client) (cachep : CachePtr) : Prop :=
  ∀ objp ∈ c.live, (c.mm.slab (pageOf objp)).cache ≠ cachep

inductive HeapCall
  | create (objsize page : Nat)
  | alloc (cachep : CachePtr) (page : Nat)
  | free (cachep : CachePtr) (objp : Nat)
  | destroy (cachep : CachePtr)

/-- What users may call; a cache is destroyed when it is drained. -/
def HeapAllowed (h : Heap) : HeapCall → Prop
  | .create objsize page => SizedCall h.client (.create objsize page)
  | .alloc cachep page => SizedCall h.client (.alloc cachep page)
  | .free cachep objp => SizedCall h.client (.free cachep objp)
  | .destroy cachep => cachep ∈ h.client.caches ∧ Drained h.client cachep

def Heap.call (h : Heap) : HeapCall → Kernel Heap
  | .create objsize page => do
    let (_, h) ← kmemCacheCreatex h objsize page
    pure h
  | .alloc cachep page => do
    let client ← h.client.call (.alloc cachep page)
    pure ⟨client, h.cacheChain⟩
  | .free cachep objp => do
    let client ← h.client.call (.free cachep objp)
    pure ⟨client, h.cacheChain⟩
  | .destroy cachep => do
    let (_, h) ← kmemCacheDestroy h cachep
    pure h

def HeapStep (h : Heap) (a : HeapCall) (h' : Heap) : Prop := HeapAllowed h a ∧ h.call a = .ok h'

/-- cache_init before the generic caches: cache_cache is on the chain. -/
def startHeap (slab : Nat → Slab) (cache : CachePtr → KmemCache) : Heap :=
  ⟨start slab cache, [.cacheCache]⟩

/-- A kmem_cache_alloc or kmem_cache_free on one cache. -/
def UseStep (cachep : CachePtr) (c : Client) (a : Call) (c' : Client) : Prop :=
  (∃ page, a = .alloc cachep page ∨ ∃ objp, a = .free cachep objp) ∧ SizedStep c a c'

/-! ## What destroying should restore -/

/-- `objp` is given out: its number is on no free chain of the cache. -/
def GivenOut (s : SlabState) (cachep : CachePtr) (objp : Nat) : Prop :=
  ∃ page ∈ s.pages, (s.slab page).cache = cachep ∧ ∃ chain i,
    Chain (s.slab page).bufctl bufctlEnd (s.slab page).free chain ∧
      i < (s.cache cachep).objcnt ∧ i ∉ chain ∧ objp = slabObj s i page

/-- The same descriptors given out and the same caches as `before`, and no page that `used`
had for the cache. -/
structure Restored (before used after : Heap) (cachep : CachePtr) : Prop where
  live : ∀ objp, GivenOut after.client.mm .cacheCache objp ↔
    GivenOut before.client.mm .cacheCache objp
  cacheChain : after.cacheChain = before.cacheChain
  pages : ∀ page ∈ used.client.mm.pages, (used.client.mm.slab page).cache = cachep →
    page ∉ after.client.mm.pages

variable {c c' : Client} {h h' : Heap} {s s' : SlabState} {cachep : CachePtr} {page addr : Nat}

/-! ## What is given out -/

/-- Given out is what somebody holds. -/
theorem givenOut_iff (hinv : Inv c) {objp : Nat} :
    GivenOut c.mm cachep objp ↔ objp ∈ c.live ∧ (c.mm.slab (pageOf objp)).cache = cachep := by
  constructor
  · rintro ⟨page, hpage, hcache, chain, i, hchain, hi, hout, rfl⟩
    obtain ⟨l, hl, hmem, -⟩ := (hinv.slabs page hpage).chain
    have hobj : slabObj c.mm i page = page + i * slabObjsz c page := by
      rw [slabObj, (hinv.slabs page hpage).data]
      rfl
    have hcnt : i < slabObjcnt c page := by
      rw [slabObjcnt, hcache]
      exact hi
    rw [hobj, hinv.pageOf_obj hpage hcnt]
    refine ⟨?_, hcache⟩
    by_contra hdead
    exact hout (hchain.unique hl ▸ (hmem i).mpr ⟨hcnt, hdead⟩)
  · rintro ⟨hlive, hcache⟩
    obtain ⟨hpage, i, hi, heq⟩ := hinv.live objp hlive
    obtain ⟨l, hl, hmem, -⟩ := (hinv.slabs _ hpage).chain
    refine ⟨pageOf objp, hpage, hcache, l, i, hl, ?_, fun hil => ?_, ?_⟩
    · rw [slabObjcnt, hcache] at hi
      exact hi
    · exact ((hmem i).mp hil).2 (heq ▸ hlive)
    · rw [slabObj, (hinv.slabs _ hpage).data]
      exact heq

/-- A slab with objects in use has a live one. -/
theorem live_of_inuse (hinv : Inv c) (hpage : page ∈ c.mm.pages)
    (huse : (c.mm.slab page).inuse ≠ 0) :
    ∃ objp ∈ c.live, (c.mm.slab (pageOf objp)).cache = (c.mm.slab page).cache := by
  obtain ⟨l, hl, hmem, hlen⟩ := (hinv.slabs page hpage).chain
  obtain ⟨i, hi, hout⟩ : ∃ i, i < slabObjcnt c page ∧ i ∉ l := by
    by_contra hall
    push Not at hall
    have hsub : List.range (slabObjcnt c page) ⊆ l := fun i hi => hall i (List.mem_range.mp hi)
    have hle := (List.nodup_range.subperm hsub).length_le
    rw [List.length_range] at hle
    omega
  refine ⟨page + i * slabObjsz c page, ?_, ?_⟩
  · by_contra hdead
    exact hout ((hmem i).mpr ⟨hi, hdead⟩)
  · rw [hinv.pageOf_obj hpage hi]

theorem not_live_of_unused (hinv : Inv c) (hpage : page ∈ c.mm.pages)
    (hfree : (c.mm.slab page).inuse = 0) {objp : Nat} (hlive : objp ∈ c.live) :
    pageOf objp ≠ page := by
  rintro rfl
  obtain ⟨l, hl, hmem, hlen⟩ := (hinv.slabs _ hpage).chain
  obtain ⟨-, i, hi, heq⟩ := hinv.live objp hlive
  rw [hfree, Nat.add_zero] at hlen
  have hil : i ∉ l := fun hil => ((hmem i).mp hil).2 (heq ▸ hlive)
  have hsub : i :: l ⊆ List.range (slabObjcnt c (pageOf objp)) := by
    intro j hj
    rcases List.mem_cons.mp hj with rfl | hj
    · exact List.mem_range.mpr hi
    · exact List.mem_range.mpr ((hmem j).mp hj).1
  have hle := ((List.nodup_cons.mpr ⟨hil, hl.nodup⟩).subperm hsub).length_le
  rw [List.length_cons, List.length_range] at hle
  omega

/-! ## One slab is destroyed -/

/-- The allocator without an unused slab. -/
def withoutSlab (s : SlabState) (page : Nat) : SlabState :=
  { listDel s page with pages := s.pages.filter (· ≠ page) }

theorem mem_withoutSlab_pages {q : Nat} :
    q ∈ (withoutSlab s page).pages ↔ q ∈ s.pages ∧ q ≠ page := by
  simp [withoutSlab]

theorem destroySlab_eq (hinv : Inv c) (hpage : page ∈ c.mm.pages)
    (hfree : (c.mm.slab page).inuse = 0) :
    destroySlab c.mm page = .ok (withoutSlab c.mm page) := by
  have hdata : ((listDel c.mm page).slab page).data = page := (hinv.slabs page hpage).data
  have hmem : page ∈ (listDel c.mm page).pages := hpage
  simp only [destroySlab, assert_pos hfree, hinv.checkSlab hpage, ok_bind, hdata, freePage,
    access_pos hmem, pure_eq_ok]
  rfl

theorem Inv.withoutSlab (hinv : Inv c) (hpage : page ∈ c.mm.pages)
    (hfree : (c.mm.slab page).inuse = 0) : Inv ⟨withoutSlab c.mm page, c.caches, c.live⟩ where
  caches cachep hk := by
    have hok := hinv.caches cachep hk
    refine ⟨hok.objsz, hok.objcnt, hok.pos, fun w => (hok.nodup w).erase page, fun w q => ?_⟩
    have hmem : q ∈ ((c.mm.cache cachep).lists w).erase page ↔
        q ≠ page ∧ q ∈ (c.mm.cache cachep).lists w := (hok.nodup w).mem_erase_iff
    exact hmem.trans (by rw [hok.mem, mem_withoutSlab_pages]; tauto)
  slabs q hq := by
    have hok := hinv.slabs q (mem_withoutSlab_pages.mp hq).1
    exact ⟨hok.aligned, hok.nonzero, hok.data, hok.known, hok.chain⟩
  homes := hinv.homes
  live objp hobjp := by
    obtain ⟨hmem, hobj⟩ := hinv.live objp hobjp
    exact ⟨mem_withoutSlab_pages.mpr ⟨hmem, not_live_of_unused hinv hpage hfree hobjp⟩, hobj⟩
  liveNodup := hinv.liveNodup

/-- The loop takes the unused slabs of the cache off, one after the other. -/
theorem destroyLoop_eq (hinv : Inv c) (hk : Known c cachep) {fuel : Nat}
    (hfuel : ((c.mm.cache cachep).lists .slabsFree).length < fuel) :
    ∃ mm, destroyLoop cachep fuel c.mm = .ok mm ∧ Inv ⟨mm, c.caches, c.live⟩ ∧
      mm.slab = c.mm.slab ∧
      ∀ q, q ∈ mm.pages ↔ q ∈ c.mm.pages ∧ q ∉ (c.mm.cache cachep).lists .slabsFree := by
  induction fuel generalizing c with
  | zero => cases hfuel
  | succ fuel ih =>
    cases hlist : (c.mm.cache cachep).lists .slabsFree with
    | nil =>
      refine ⟨c.mm, ?_, hinv, rfl, fun q => ?_⟩
      · rw [destroyLoop, hlist]
        rfl
      · simp only [List.not_mem_nil, not_false_iff, and_true]
    | cons slab rest =>
      have hok := hinv.caches cachep hk
      obtain ⟨hpage, -, hhome⟩ := (hok.mem .slabsFree slab).mp (hlist ▸ List.mem_cons_self ..)
      have hfree : (c.mm.slab slab).inuse = 0 := by
        by_contra huse
        rw [home, if_neg huse] at hhome
        split_ifs at hhome
      have hrest : ((withoutSlab c.mm slab).cache cachep).lists .slabsFree = rest := by
        show ((c.mm.cache cachep).lists .slabsFree).erase slab = rest
        rw [hlist, List.erase_cons_head]
      have hlt : (((withoutSlab c.mm slab).cache cachep).lists .slabsFree).length < fuel := by
        rw [hlist, List.length_cons] at hfuel
        rw [hrest]
        omega
      obtain ⟨mm, hloop, hinv', hslab, hpages⟩ := ih (Inv.withoutSlab hinv hpage hfree) hk hlt
      refine ⟨mm, ?_, hinv', hslab, fun q => ?_⟩
      · rw [destroyLoop, hlist]
        show (destroySlab c.mm slab >>= _) = _
        rw [destroySlab_eq hinv hpage hfree]
        exact hloop
      · rw [hpages, mem_withoutSlab_pages, hrest, List.mem_cons, not_or, and_assoc]

/-! ## The cache is destroyed -/

theorem object_ne_zero (hinv : Inv c) (hmem : .object addr ∈ c.caches) : addr ≠ 0 := by
  obtain ⟨hlive, -⟩ := hinv.homes addr hmem
  obtain ⟨hpage, i, -, heq⟩ := hinv.live addr hlive
  have hpos := (hinv.slabs _ hpage).nonzero
  omega

/-- A drained cache has unused slabs only. -/
theorem lists_of_drained (hinv : Inv c) (hk : Known c cachep) (hdrained : Drained c cachep)
    {w : SlabList} (hw : w ≠ .slabsFree) : (c.mm.cache cachep).lists w = [] := by
  refine List.eq_nil_iff_forall_not_mem.mpr fun page hmem => ?_
  obtain ⟨hpage, hcache, hhome⟩ := ((hinv.caches cachep hk).mem w page).mp hmem
  have huse : (c.mm.slab page).inuse ≠ 0 := by
    intro hzero
    rw [home, if_pos hzero] at hhome
    exact hw hhome.symm
  obtain ⟨objp, hlive, hobj⟩ := live_of_inuse hinv hpage huse
  exact hdrained objp hlive (hobj.trans hcache)

theorem free_of_drained (hinv : Inv c) (hdrained : Drained c cachep) (hpage : page ∈ c.mm.pages)
    (hcache : (c.mm.slab page).cache = cachep) :
    page ∈ (c.mm.cache cachep).lists .slabsFree := by
  have hk : Known c cachep := hcache ▸ (hinv.slabs page hpage).known
  refine ((hinv.caches cachep hk).mem .slabsFree page).mpr ⟨hpage, hcache, ?_⟩
  by_contra hhome
  have hlist := lists_of_drained hinv hk hdrained hhome
  have hmem := ((hinv.caches cachep hk).mem _ page).mpr ⟨hpage, hcache, rfl⟩
  rw [hlist] at hmem
  exact List.not_mem_nil hmem

/-- A cache without slabs can be forgotten. -/
theorem Inv.forget (hinv : Inv c) (hgone : ∀ page ∈ c.mm.pages, (c.mm.slab page).cache ≠ cachep) :
    Inv ⟨c.mm, c.caches.filter (· ≠ cachep), c.live⟩ := by
  have hsub : ∀ {k}, k ∈ c.caches.filter (· ≠ cachep) → k ∈ c.caches := fun hk =>
    (List.mem_filter.mp hk).1
  refine ⟨fun k hk => ?_, fun page hpage => ?_, fun a ha => hinv.homes a (hsub ha), hinv.live,
    hinv.liveNodup⟩
  · have hok := hinv.caches k (hk.imp_right hsub)
    exact ⟨hok.objsz, hok.objcnt, hok.pos, hok.nodup, hok.mem⟩
  · have hok := hinv.slabs page hpage
    refine ⟨hok.aligned, hok.nonzero, hok.data, hok.known.imp_right fun hmem => ?_, hok.chain⟩
    exact List.mem_filter.mpr ⟨hmem, decide_eq_true (hgone page hpage)⟩

/-- kmem_cache_destroy of a drained cache returns its pages and its place on the chain. -/
theorem kmemCacheDestroy_eq (hs : Sound h.client) (hmem : cachep ∈ h.client.caches)
    (hdrained : Drained h.client cachep) :
    ∃ mm, kmemCacheDestroy h cachep = .ok (0, ⟨⟨mm, h.client.caches.filter (· ≠ cachep),
        h.client.live⟩, h.cacheChain.erase cachep⟩) ∧
      Sound ⟨mm, h.client.caches.filter (· ≠ cachep), h.client.live⟩ ∧
      mm.slab = h.client.mm.slab ∧ ∀ q, q ∈ mm.pages ↔ q ∈ h.client.mm.pages ∧ (h.client.mm.slab q).cache ≠ cachep := by
  have hinv := hs.1
  have hk : Known h.client cachep := .inr hmem
  have hnull : cachep ≠ .object 0 := by
    rintro rfl
    exact object_ne_zero hinv hmem rfl
  have hshort := lists_of_drained hinv hk hdrained (by decide : SlabList.slabsPartial ≠ .slabsFree)
  have hfull := lists_of_drained hinv hk hdrained (by decide : SlabList.slabsFull ≠ .slabsFree)
  obtain ⟨mm, hloop, hinv', hslab, hpages⟩ := destroyLoop_eq hinv hk (Nat.lt_succ_self _)
  have hleft : ∀ q, q ∈ mm.pages ↔
      q ∈ h.client.mm.pages ∧ (h.client.mm.slab q).cache ≠ cachep := by
    intro q
    rw [hpages]
    refine and_congr_right fun hq => not_congr ⟨fun hlist => ?_, free_of_drained hinv hdrained hq⟩
    exact (((hinv.caches cachep hk).mem _ q).mp hlist).2.1
  refine ⟨mm, ?_, ⟨Inv.forget hinv' fun q hq => ?_, fun hcc => hs.2 (List.mem_filter.mp hcc).1⟩,
    hslab, hleft⟩
  · simp only [kmemCacheDestroy, assert_pos hnull, ok_bind]
    rw [if_neg (by rw [hshort, hfull]; simp), hloop]
    rfl
  · show (mm.slab q).cache ≠ cachep
    rw [hslab]
    exact ((hleft q).mp hq).2

theorem Sound.heapStep {a : HeapCall} (hs : Sound h.client) (st : HeapStep h a h') :
    Sound h'.client := by
  obtain ⟨hallowed, hcall⟩ := st
  cases a with
  | create objsize page =>
    simp only [Heap.call, kmemCacheCreatex, bind_eq_ok, pure_eq_ok, Except.ok.injEq] at hcall
    obtain ⟨_, ⟨⟨addr, mm⟩, hcreate, rfl⟩, rfl⟩ := hcall
    have hsized : SizedCall h.client (.create objsize page) := hallowed
    refine hs.step ⟨hsized, ?_⟩
    simp only [Client.call, hcreate, ok_bind, pure_eq_ok]
    rfl
  | alloc cachep page =>
    simp only [Heap.call, bind_eq_ok, pure_eq_ok, Except.ok.injEq] at hcall
    obtain ⟨client, hcall, rfl⟩ := hcall
    have hsized : SizedCall h.client (.alloc cachep page) := hallowed
    exact hs.step ⟨hsized, hcall⟩
  | free cachep objp =>
    simp only [Heap.call, bind_eq_ok, pure_eq_ok, Except.ok.injEq] at hcall
    obtain ⟨client, hcall, rfl⟩ := hcall
    have hsized : SizedCall h.client (.free cachep objp) := hallowed
    exact hs.step ⟨hsized, hcall⟩
  | destroy cachep =>
    obtain ⟨mm, hdestroy, hs', -, -⟩ := kmemCacheDestroy_eq hs hallowed.1 hallowed.2
    simp only [Heap.call, hdestroy, ok_bind, pure_eq_ok, Except.ok.injEq] at hcall
    exact hcall ▸ hs'

/-! ## A cache in use -/

theorem slabAlloc_cache {objp : Nat} (hcall : slabAlloc s page = .ok (objp, s')) (q : Nat) :
    (s'.slab q).cache = (s.slab q).cache := by
  simp only [slabAlloc, bind_eq_ok, pure_eq_ok, Except.ok.injEq, Prod.mk.injEq] at hcall
  obtain ⟨_, -, _, -, -, rfl⟩ := hcall
  show (Function.update s.slab page (s.slab page).taken q).cache = _
  by_cases hq : q = page
  · rw [hq, Function.update_self]
    rfl
  · rw [Function.update_of_ne hq]

theorem createSlab_cache (hcall : createSlab s cachep page = .ok s') :
    page ∉ s.pages ∧ page % pageSize = 0 ∧ 0 < (s.cache cachep).objcnt ∧
      s'.slab = Function.update s.slab page (newSlab cachep (s.cache cachep).objcnt page) := by
  simp only [createSlab, allocZeroedPage, bind_eq_ok, access_eq_ok, pure_eq_ok,
    Except.ok.injEq] at hcall
  obtain ⟨_, -, _, ⟨_, hfresh, rfl⟩, _, hpos, _, -, rfl⟩ := hcall
  exact ⟨hfresh.2.2.2, hfresh.1, hpos, rfl⟩

/-- An allocation leaves every slab with its cache; a new one belongs to the cache. -/
theorem kmemCacheAlloc_cache {objp : Nat} (hcall : kmemCacheAlloc s cachep page = .ok (objp, s'))
    (q : Nat) : (s'.slab q).cache = (s.slab q).cache ∨
      q ∉ s.pages ∧ (s'.slab q).cache = cachep := by
  simp only [kmemCacheAlloc, bind_eq_ok] at hcall
  obtain ⟨_, -, hcall⟩ := hcall
  split at hcall
  · exact .inl (slabAlloc_cache hcall q)
  · split at hcall
    · exact .inl (slabAlloc_cache hcall q)
    · obtain ⟨s₁, hcreate, halloc⟩ := bind_eq_ok.mp hcall
      obtain ⟨hnew, -, -, hslab⟩ := createSlab_cache hcreate
      rw [slabAlloc_cache halloc q, hslab]
      by_cases hq : q = page
      · rw [hq, Function.update_self]
        exact .inr ⟨hnew, rfl⟩
      · rw [Function.update_of_ne hq]
        exact .inl rfl

theorem kmemCacheFree_cache {objp : Nat} (hcall : kmemCacheFree s cachep objp = .ok s') (q : Nat) :
    (s'.slab q).cache = (s.slab q).cache := by
  simp only [kmemCacheFree, slabFree, bind_eq_ok, pure_eq_ok, Except.ok.injEq] at hcall
  obtain ⟨_, -, _, -, objnr, -, rfl⟩ := hcall
  show (Function.update s.slab (pageOf objp) ((s.slab (pageOf objp)).returned objnr) q).cache = _
  by_cases hq : q = pageOf objp
  · rw [hq, Function.update_self]
    rfl
  · rw [Function.update_of_ne hq]

/-- The objects of cache_cache that are held. -/
def Descriptor (c : Client) (objp : Nat) : Prop :=
  objp ∈ c.live ∧ (c.mm.slab (pageOf objp)).cache = .cacheCache

/-- A cache of a size in order while it is used, since the state `b`. -/
structure InUse (b : Client) (addr : Nat) (c : Client) : Prop where
  sound : Sound c
  mem : .object addr ∈ c.caches
  descriptors : ∀ objp, Descriptor c objp ↔ Descriptor b objp

theorem InUse.step {b : Client} {a : Call} (hu : InUse b addr c)
    (st : UseStep (.object addr) c a c') : InUse b addr c' := by
  obtain ⟨⟨page, huse⟩, hstep⟩ := st
  refine ⟨hu.sound.step hstep, ?_, fun objp => Iff.trans ?_ (hu.descriptors objp)⟩
  · obtain ⟨-, hcall⟩ := hstep
    rcases huse with rfl | ⟨objp, rfl⟩
    · simp only [Client.call, bind_eq_ok, pure_eq_ok, Except.ok.injEq] at hcall
      obtain ⟨_, -, rfl⟩ := hcall
      exact hu.mem
    · simp only [Client.call, bind_eq_ok, pure_eq_ok, Except.ok.injEq] at hcall
      obtain ⟨_, -, rfl⟩ := hcall
      exact hu.mem
  · have hinv := hu.sound.1
    obtain ⟨hallowed, hcall⟩ := hstep
    rcases huse with rfl | ⟨freed, rfl⟩
    · simp only [Client.call, bind_eq_ok, pure_eq_ok, Except.ok.injEq] at hcall
      obtain ⟨⟨new, mm⟩, halloc, rfl⟩ := hcall
      obtain ⟨_, _, halloc', -, hcache, -⟩ := hinv.kmemCacheAlloc (.inr hallowed.1) hallowed.2
      obtain ⟨rfl, rfl⟩ := Prod.mk.inj (Except.ok.inj (halloc.symm.trans halloc'))
      have hold : ∀ x ∈ c.live, (mm.slab (pageOf x)).cache = (c.mm.slab (pageOf x)).cache :=
        fun x hx => (kmemCacheAlloc_cache halloc (pageOf x)).resolve_right fun hnew =>
          hnew.1 (hinv.live x hx).1
      constructor
      · rintro ⟨hlive, hcc⟩
        rcases List.mem_cons.mp hlive with rfl | hlive
        · exact absurd (hcache.symm.trans hcc) (by simp)
        · exact ⟨hlive, (hold objp hlive).symm.trans hcc⟩
      · rintro ⟨hlive, hcc⟩
        exact ⟨List.mem_cons_of_mem _ hlive, (hold objp hlive).trans hcc⟩
    · simp only [Client.call, bind_eq_ok, pure_eq_ok, Except.ok.injEq] at hcall
      obtain ⟨mm, hfree, rfl⟩ := hcall
      have hcaches := kmemCacheFree_cache hfree (pageOf objp)
      constructor
      · rintro ⟨hlive, hcc⟩
        exact ⟨List.mem_of_mem_erase hlive, hcaches.symm.trans hcc⟩
      · rintro ⟨hlive, hcc⟩
        have hne : objp ≠ freed := by
          rintro rfl
          exact absurd (hallowed.2.2.symm.trans hcc) (by simp)
        exact ⟨(List.mem_erase_of_ne hne).mpr hlive, hcaches.trans hcc⟩

/-! ## A cache just created -/

/-- The descriptor is a new object of cache_cache; nothing else is written for the cache. -/
theorem created (hs : Sound c) {objsize : Nat} (hfresh : Fresh c.mm page)
    (hcreate : kmemCacheCreate c.mm objsize page = .ok (addr, s)) :
    ∃ mm, s = setCache mm (.object addr) ⟨fun _ => [], align2 objsize, objcntOf (align2 objsize)⟩ ∧
      addr ∉ c.live ∧ Inv ⟨mm, c.caches, addr :: c.live⟩ ∧
      ∀ objp, Descriptor (withCache c addr s) objp ↔ objp = addr ∨ Descriptor c objp := by
  obtain ⟨objp, mm, halloc, hdead, hcache, hinv⟩ := hs.1.kmemCacheAlloc (.inl rfl) hfresh
  simp only [kmemCacheCreate, halloc, ok_bind, bind_eq_ok, pure_eq_ok, Except.ok.injEq,
    Prod.mk.injEq] at hcreate
  obtain ⟨_, -, _, -, rfl, rfl⟩ := hcreate
  refine ⟨mm, rfl, hdead, hinv, fun x => ?_⟩
  have hold : ∀ x ∈ c.live, (mm.slab (pageOf x)).cache = (c.mm.slab (pageOf x)).cache :=
    fun x hx => (kmemCacheAlloc_cache halloc (pageOf x)).resolve_right fun hnew =>
      hnew.1 (hs.1.live x hx).1
  show x ∈ objp :: c.live ∧ (mm.slab (pageOf x)).cache = .cacheCache ↔ _
  constructor
  · rintro ⟨hlive, hcc⟩
    rcases List.mem_cons.mp hlive with rfl | hlive
    · exact .inl rfl
    · exact .inr ⟨hlive, (hold x hlive).symm.trans hcc⟩
  · rintro (rfl | ⟨hlive, hcc⟩)
    · exact ⟨List.mem_cons_self .., hcache⟩
    · exact ⟨List.mem_cons_of_mem _ hlive, (hold x hlive).trans hcc⟩

/-- Objects of cache_cache, given out or held, in a state that has a new descriptor. -/
theorem givenOut_created {mm : SlabState} {k : KmemCache}
    (hinv : Inv ⟨mm, c.caches, addr :: c.live⟩) {objp : Nat} :
    GivenOut (setCache mm (.object addr) k) .cacheCache objp ↔
      Descriptor (withCache c addr (setCache mm (.object addr) k)) objp := by
  have hne : CachePtr.cacheCache ≠ .object addr := by simp
  have hsame : (setCache mm (.object addr) k).cache .cacheCache = mm.cache .cacheCache :=
    Function.update_of_ne hne k mm.cache
  refine Iff.trans ?_ (givenOut_iff hinv)
  have hobj : ∀ page i, (mm.slab page).cache = .cacheCache →
      slabObj (setCache mm (.object addr) k) i page = slabObj mm i page := by
    intro page i hcc
    show (mm.slab page).data + i * ((setCache mm (.object addr) k).cache (mm.slab page).cache).objsz
      = (mm.slab page).data + i * (mm.cache (mm.slab page).cache).objsz
    rw [hcc, hsame]
  constructor
  · rintro ⟨page, hpage, hcc, chain, i, hchain, hi, hout, heq⟩
    exact ⟨page, hpage, hcc, chain, i, hchain, hsame ▸ hi, hout, heq.trans (hobj page i hcc)⟩
  · rintro ⟨page, hpage, hcc, chain, i, hchain, hi, hout, heq⟩
    exact ⟨page, hpage, hcc, chain, i, hchain, hsame.symm ▸ hi, hout,
      heq.trans (hobj page i hcc).symm⟩

/-- A new cache has no slab. -/
theorem no_slab (hs : Sound c) {mm : SlabState} (hdead : addr ∉ c.live)
    (hinv : Inv ⟨mm, c.caches, addr :: c.live⟩) (hpage : page ∈ mm.pages) :
    (mm.slab page).cache ≠ .object addr := by
  intro hcache
  rcases (hinv.slabs page hpage).known with hcc | hmem
  · exact absurd (hcache.symm.trans hcc) (by simp)
  · exact hdead (hs.1.homes addr (hcache ▸ hmem)).1

theorem drained_created (hs : Sound c) {objsize : Nat} (hfresh : Fresh c.mm page)
    (hcreate : kmemCacheCreate c.mm objsize page = .ok (addr, s)) :
    Drained (withCache c addr s) (.object addr) := by
  obtain ⟨mm, rfl, hdead, hinv, -⟩ := created hs hfresh hcreate
  intro objp hlive
  have hno : (mm.slab (pageOf objp)).cache ≠ .object addr :=
    no_slab hs hdead hinv (hinv.live objp hlive).1
  exact hno

/-! ## Sizes out of order -/

/-- A cache of a size that rounds to nothing or that no page has room for is as created, or
somebody holds an object that cannot come back. -/
structure Stuck (c₁ : Client) (addr objsz : Nat) (c : Client) : Prop where
  size : (c.mm.cache (.object addr)).objsz = objsz
  count : (c.mm.cache (.object addr)).objcnt = objcntOf objsz
  held : c = c₁ ∨ objsz = 0 ∧ ∃ objp ∈ c.live, (c.mm.slab (pageOf objp)).cache = .object addr

/-- The first object of a cache lies at the start of its first slab. -/
theorem firstAlloc_held {objp : Nat} (hempty : ∀ w, (s.cache cachep).lists w = [])
    (hcall : kmemCacheAlloc s cachep page = .ok (objp, s')) :
    (s'.slab (pageOf objp)).cache = cachep := by
  simp only [kmemCacheAlloc, hempty, bind_eq_ok] at hcall
  obtain ⟨_, -, s₁, hcreate, halloc⟩ := hcall
  obtain ⟨-, haligned, -, hslab⟩ := createSlab_cache hcreate
  have hself : s₁.slab page = newSlab cachep (s.cache cachep).objcnt page := by
    rw [hslab, Function.update_self]
  have hcache : ∀ q, (s'.slab q).cache = (s₁.slab q).cache := slabAlloc_cache halloc
  have hobjp : objp = page := by
    simp only [slabAlloc, bind_eq_ok, pure_eq_ok, Except.ok.injEq, Prod.mk.injEq] at halloc
    obtain ⟨_, -, _, -, rfl, -⟩ := halloc
    show (Function.update s₁.slab page (s₁.slab page).taken page).data + (s₁.slab page).free * _ =
      page
    rw [Function.update_self, hself]
    show page + 0 * _ = page
    rw [Nat.zero_mul, Nat.add_zero]
  rw [hcache, hobjp, pageOf, haligned, Nat.sub_zero, hself]
  rfl

theorem Stuck.step {c₁ : Client} {objsz : Nat} {a : Call}
    (hempty : ∀ w, (c₁.mm.cache (.object addr)).lists w = [])
    (hnone : Drained c₁ (.object addr)) (hbad : objsz = 0 ∨ objcntOf objsz = 0)
    (hstuck : Stuck c₁ addr objsz c) (st : UseStep (.object addr) c a c') :
    Stuck c₁ addr objsz c' := by
  obtain ⟨⟨page, huse⟩, hallowed, hcall⟩ := st
  rcases huse with rfl | ⟨objp, rfl⟩
  · simp only [Client.call, bind_eq_ok, pure_eq_ok, Except.ok.injEq] at hcall
    obtain ⟨⟨objp, mm⟩, halloc, rfl⟩ := hcall
    have hsizes := kmemCacheAlloc_sizes halloc (.object addr)
    refine ⟨hsizes.1.trans hstuck.size, hsizes.2.trans hstuck.count, .inr ?_⟩
    rcases hstuck.held with rfl | ⟨hzero, x, hx, hcache⟩
    · have hzero : objsz = 0 := by
        by_contra hne
        have hcnt := hbad.resolve_left hne
        simp only [kmemCacheAlloc, hempty, bind_eq_ok] at halloc
        obtain ⟨_, -, s₁, hcreate, -⟩ := halloc
        obtain ⟨-, -, hpos, -⟩ := createSlab_cache hcreate
        rw [hstuck.count, hcnt] at hpos
        exact Nat.lt_irrefl 0 hpos
      exact ⟨hzero, objp, List.mem_cons_self .., firstAlloc_held hempty halloc⟩
    · refine ⟨hzero, x, List.mem_cons_of_mem _ hx, ?_⟩
      rcases kmemCacheAlloc_cache halloc (pageOf x) with hsame | ⟨-, hnew⟩
      · exact hsame.trans hcache
      · exact hnew
  · obtain ⟨-, hlive, hcache⟩ := hallowed
    rcases hstuck.held with rfl | ⟨hzero, -⟩
    · exact absurd hcache (hnone objp hlive)
    · -- the division by the size of an object
      simp only [Client.call, kmemCacheFree, slabFree, slabObjnr, bind_eq_ok, access_eq_ok] at hcall
      obtain ⟨_, ⟨_, -, _, -, _, ⟨_, hne, -⟩, -⟩, -⟩ := hcall
      rw [hcache, hstuck.size] at hne
      exact absurd hzero hne

/-! ## Create, use, destroy -/

/-- After any use of a new cache that leaves nobody with an object of it, kmem_cache_destroy
succeeds and returns the chain and the pages, but one more descriptor is given out than before
the creation. -/
theorem destroy_keeps_descriptor (hs : Sound h.client) {objsize : Nat} {h₁ : Heap}
    (hfresh : Fresh h.client.mm page) (hcreate : kmemCacheCreatex h objsize page = .ok (addr, h₁))
    (huse : Reach (UseStep (.object addr)) h₁.client c)
    (hdrained : Drained c (.object addr)) :
    ∃ h₂, kmemCacheDestroy ⟨c, h₁.cacheChain⟩ (.object addr) = .ok (0, h₂) ∧
      h₂.cacheChain = h.cacheChain ∧
      (∀ q ∈ c.mm.pages, (c.mm.slab q).cache = .object addr → q ∉ h₂.client.mm.pages) ∧
      ¬GivenOut h.client.mm .cacheCache addr ∧
      ∀ objp, GivenOut h₂.client.mm .cacheCache objp ↔
        objp = addr ∨ GivenOut h.client.mm .cacheCache objp := by
  simp only [kmemCacheCreatex, bind_eq_ok, pure_eq_ok, Except.ok.injEq, Prod.mk.injEq] at hcreate
  obtain ⟨⟨addr, mm₁⟩, hcreate, rfl, rfl⟩ := hcreate
  obtain ⟨mm, rfl, hdead, hinv, hdescriptors⟩ := created hs hfresh hcreate
  have hbefore : ¬GivenOut h.client.mm .cacheCache addr := fun hout =>
    hdead ((givenOut_iff hs.1).mp hout).1
  have hafter : ∀ objp, Descriptor (withCache h.client addr (setCache mm (.object addr)
      ⟨fun _ => [], align2 objsize, objcntOf (align2 objsize)⟩)) objp ↔
        objp = addr ∨ GivenOut h.client.mm .cacheCache objp := fun objp =>
    (hdescriptors objp).trans (or_congr_right (givenOut_iff hs.1).symm)
  have hchain : (CachePtr.object addr :: h.cacheChain).erase (.object addr) = h.cacheChain :=
    List.erase_cons_head ..
  by_cases hsize : 4 ≤ align2 objsize ∧ 1 ≤ objcntOf (align2 objsize)
  · obtain ⟨addr', mm', hcreate', hs'⟩ := hs.create hsize.1 hsize.2 hfresh
    obtain ⟨rfl, rfl⟩ := Prod.mk.inj (Except.ok.inj (hcreate.symm.trans hcreate'))
    have hstart : InUse _ addr _ := ⟨hs', List.mem_cons_self .., fun _ => Iff.rfl⟩
    have hinuse := huse.inv (fun _ _ _ hu st => InUse.step hu st) hstart
    obtain ⟨mm₂, hdestroy, hs₂, hslab, hpages⟩ := @kmemCacheDestroy_eq ⟨c, _⟩ _ hinuse.sound
      hinuse.mem hdrained
    refine ⟨_, hdestroy, hchain, fun q hq hcache hq₂ => ((hpages q).mp hq₂).2 hcache, hbefore,
      fun objp => ?_⟩
    have hdescriptor : Descriptor c objp ↔ objp ∈ c.live ∧
        (mm₂.slab (pageOf objp)).cache = .cacheCache := by
      rw [hslab]
      rfl
    rw [← hafter objp, ← hinuse.descriptors objp, hdescriptor]
    exact givenOut_iff hs₂.1
  · have hbad : align2 objsize = 0 ∨ objcntOf (align2 objsize) = 0 := by
      rw [align2_eq] at hsize ⊢
      omega
    set c₁ := withCache h.client addr (setCache mm (.object addr)
      ⟨fun _ => [], align2 objsize, objcntOf (align2 objsize)⟩) with hc₁
    have hcache : c₁.mm.cache (.object addr) =
        ⟨fun _ => [], align2 objsize, objcntOf (align2 objsize)⟩ := Function.update_self ..
    have hempty : ∀ w, (c₁.mm.cache (.object addr)).lists w = [] := fun w => by rw [hcache]
    have hno : ∀ q ∈ mm.pages, (mm.slab q).cache ≠ .object addr := fun q hq =>
      no_slab hs hdead hinv hq
    have hnone : Drained c₁ (.object addr) := drained_created hs hfresh hcreate
    have hstart : Stuck c₁ addr (align2 objsize) c₁ := ⟨by rw [hcache], by rw [hcache], .inl rfl⟩
    have hstuck := huse.inv (fun _ _ _ hst st => Stuck.step hempty hnone hbad hst st) hstart
    obtain rfl : c = c₁ := hstuck.held.resolve_right fun ⟨_, objp, hlive, hobj⟩ =>
      hdrained objp hlive hobj
    have hnull : CachePtr.object addr ≠ .object 0 := by
      intro heq
      obtain ⟨hpage, i, -, hobj⟩ := hinv.live addr (List.mem_cons_self ..)
      have hpos := (hinv.slabs _ hpage).nonzero
      have hzero := CachePtr.object.inj heq
      omega
    refine ⟨⟨⟨c₁.mm, c₁.caches.filter (· ≠ .object addr), c₁.live⟩, _⟩, ?_, hchain,
      fun q hq hobj => absurd hobj (hno q hq), hbefore, fun objp => ?_⟩
    · simp only [kmemCacheDestroy, assert_pos hnull, ok_bind, hempty]
      rw [if_neg (by simp), destroyLoop, hempty]
      rfl
    · exact (givenOut_created hinv).trans (hafter objp)

/-- Creating, using and destroying a cache never restores the state before it. -/
theorem destroy_never_restores {slab : Nat → Slab} {cache : CachePtr → KmemCache}
    (hreach : Reach HeapStep (startHeap slab cache) h) {objsize : Nat} {h₁ : Heap}
    (hfresh : Fresh h.client.mm page) (hcreate : kmemCacheCreatex h objsize page = .ok (addr, h₁))
    (huse : Reach (UseStep (.object addr)) h₁.client c)
    (hdrained : Drained c (.object addr)) :
    ¬∃ ret h₂, kmemCacheDestroy ⟨c, h₁.cacheChain⟩ (.object addr) = .ok (ret, h₂) ∧
      Restored h ⟨c, h₁.cacheChain⟩ h₂ (.object addr) := by
  have hs : Sound h.client :=
    hreach.inv (fun _ _ _ hs st => Sound.heapStep hs st) (Sound.start slab cache)
  rintro ⟨ret, h₂, hdestroy, hrestored⟩
  obtain ⟨h₂', hdestroy', -, -, hbefore, hafter⟩ :=
    destroy_keeps_descriptor hs hfresh hcreate huse hdrained
  obtain ⟨-, rfl⟩ := Prod.mk.inj (Except.ok.inj (hdestroy.symm.trans hdestroy'))
  exact hbefore ((hrestored.live addr).mp ((hafter addr).mpr (.inl rfl)))

/-- The allocator before its first cache. -/
def blankHeap : Heap := ⟨blank, [.cacheCache]⟩

/-- A cache of eight-byte objects gets object 0 of page 4096. -/
theorem blankHeap_create : ∃ h₁, kmemCacheCreatex blankHeap 8 4096 = .ok (4096, h₁) ∧
    Drained h₁.client (.object 4096) := by
  obtain ⟨mm, hcreate, -⟩ := blank_create (show Accepted 8 by decide)
  refine ⟨⟨withCache blank 4096 mm, [.object 4096, .cacheCache]⟩, ?_,
    drained_created blank_sound blank_fresh hcreate⟩
  show (kmemCacheCreate blank.mm 8 4096 >>= _) = _
  rw [hcreate]
  rfl

theorem destroy_never_restores_eight : ∃ h₁, kmemCacheCreatex blankHeap 8 4096 = .ok (4096, h₁) ∧
    ¬∃ ret h₂, kmemCacheDestroy ⟨h₁.client, h₁.cacheChain⟩ (.object 4096) = .ok (ret, h₂) ∧
      Restored blankHeap ⟨h₁.client, h₁.cacheChain⟩ h₂ (.object 4096) := by
  obtain ⟨h₁, hcreate, hdrained⟩ := blankHeap_create
  exact ⟨h₁, hcreate, @destroy_never_restores _ blankHeap 4096 4096 _ _ .refl 8 _ blank_fresh
    hcreate .refl hdrained⟩

/-- The first cache, destroyed at once, leaves its descriptor given out. -/
theorem destroyed_descriptor_stays : ∃ h₁ h₂,
    kmemCacheCreatex blankHeap 8 4096 = .ok (4096, h₁) ∧
      kmemCacheDestroy h₁ (.object 4096) = .ok (0, h₂) ∧ h₂.cacheChain = blankHeap.cacheChain ∧
      ¬GivenOut blankHeap.client.mm .cacheCache 4096 ∧ GivenOut h₂.client.mm .cacheCache 4096 := by
  obtain ⟨h₁, hcreate, hdrained⟩ := blankHeap_create
  obtain ⟨h₂, hdestroy, hchain, -, hbefore, hafter⟩ :=
    @destroy_keeps_descriptor _ blankHeap 4096 4096 blank_sound 8 _ blank_fresh hcreate .refl
      hdrained
  exact ⟨h₁, h₂, hcreate, hdestroy, hchain, hbefore, (hafter 4096).mpr (.inl rfl)⟩

end RxdOs.Mm.SlabDestroy
