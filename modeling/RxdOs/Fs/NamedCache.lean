/- RxdOs/Fs/NamedCache
   source: fs/fs.c (get_dentry, create_dentry, put_dentry, _close, _opendir, _open)
   digest: Cached names are names of the root directory, and the operations on dentries keep
   them so. -/

import RxdOs.Fs.PathResolution
import RxdOs.Fs.RootDirectory
import RxdOs.Fs.WriteThrough

set_option autoImplicit false
set_option relaxedAutoImplicit false

namespace RxdOs.Fs.NamedCache

open RxdOs.Base.Assert RxdOs.Base.Int32 RxdOs.Lib.Execution RxdOs.Fs.Bitmap RxdOs.Fs.Layout
  RxdOs.Fs.Zone RxdOs.Fs.ZoneMap RxdOs.Fs.InodeCache RxdOs.Fs.InodeRecord RxdOs.Fs.InodeRegion
  RxdOs.Fs.InodeTable RxdOs.Fs.Name RxdOs.Fs.Dir RxdOs.Fs.Directory RxdOs.Fs.DentryCache
  RxdOs.Fs.Open RxdOs.Fs.CacheReach RxdOs.Fs.PathResolution RxdOs.Fs.RootDirectory
  RxdOs.Fs.WriteThrough

variable {s s' : FsState} {es es' : List Record} {d : DentryPtr} {p : InodePtr} {env : Env}

/-! ## Names in the dentry cache -/

section Names

/-- The dentries that hang below root_dentry. -/
def children (s : FsState) : Finset DentryPtr :=
  s.dentryList.toFinset.filter fun d => d ≠ .root ∧ (s.dentry d).dParent = some .root

/-- The dentry is named after an entry, and linked to the inode of its file. -/
def NamedAfter (s : FsState) (es : List Record) (dName : DName) (p : InodePtr) : Prop :=
  ∃ r ∈ es, dName.toQStr = ⟨r.name.length, r.name⟩ ∧ (s.vol.inode p).iInum = r.inode

/-- Linked dentries are named after entries of the root directory, and root_dentry has more
references than dentries below it. -/
structure Tidy (s : FsState) (es : List Record) : Prop where
  named : ∀ d ∈ s.dentryList, d ≠ .root → ∀ p, (s.dentry d).dInode = some p →
    NamedAfter s es (s.dentry d).dName p
  hung : ∀ d ∈ s.dentryList, d ≠ .root → (s.dentry d).dParent ≠ none → (s.dentry d).dInode ≠ none
  counted : (s.dentry .root).dInode ≠ none → (children s).card < (s.dentry .root).dRefcnt

theorem mem_children {x : DentryPtr} : x ∈ children s ↔
    x ∈ s.dentryList ∧ x ≠ .root ∧ (s.dentry x).dParent = some .root := by
  rw [children, Finset.mem_filter, List.mem_toFinset]

theorem children_congr (hlist : s'.dentryList = s.dentryList)
    (hparent : ∀ x, (s'.dentry x).dParent = (s.dentry x).dParent) : children s' = children s := by
  ext x
  rw [mem_children, mem_children, hlist, hparent]

/-- Only names and links matter, and root_dentry may get more references. -/
theorem Tidy.congr (h : Tidy s es) (hlist : s'.dentryList = s.dentryList)
    (hname : ∀ x, (s'.dentry x).dName = (s.dentry x).dName)
    (hparent : ∀ x, (s'.dentry x).dParent = (s.dentry x).dParent)
    (hinode : ∀ x, (s'.dentry x).dInode = (s.dentry x).dInode)
    (hcount : (s.dentry .root).dRefcnt ≤ (s'.dentry .root).dRefcnt)
    (hnum : ∀ x ∈ s.dentryList, ∀ q, (s.dentry x).dInode = some q →
      (s'.vol.inode q).iInum = (s.vol.inode q).iInum)
    (hes : ∀ r ∈ es, r ∈ es') : Tidy s' es' := by
  refine ⟨fun x hx hne q hq => ?_, fun x hx hne => ?_, fun hne => ?_⟩
  · rw [hlist] at hx
    rw [hinode] at hq
    obtain ⟨r, hr, hqstr, hinum⟩ := h.named x hx hne q hq
    rw [hname]
    exact ⟨r, hes r hr, hqstr, (hnum x hx q hq).trans hinum⟩
  · rw [hlist] at hx
    rw [hparent, hinode]
    exact h.hung x hx hne
  · rw [hinode] at hne
    rw [children_congr hlist hparent]
    exact (h.counted hne).trans_le hcount

theorem Tidy.addRef (h : Tidy s es) (d : DentryPtr) : Tidy (addRef s d 1) es := by
  refine h.congr rfl ?_ ?_ ?_ ?_ (fun _ _ _ _ => rfl) fun _ hr => hr
  · intro x
    rw [addRef_dentry]
  · intro x
    rw [addRef_dentry]
  · intro x
    rw [addRef_dentry]
  · rw [addRef_dentry]
    show _ ≤ (s.dentry .root).dRefcnt + if DentryPtr.root = d then 1 else 0
    split_ifs
    · omega
    · omega

/-- The volume changes, but no number of an inode that a dentry is linked to. -/
theorem Tidy.volume (h : Tidy s es) {vol : Volume}
    (hnum : ∀ x ∈ s.dentryList, ∀ q, (s.dentry x).dInode = some q →
      (vol.inode q).iInum = (s.vol.inode q).iInum)
    (hes : ∀ r ∈ es, r ∈ es') : Tidy { s with vol := vol } es' :=
  h.congr rfl (fun _ => rfl) (fun _ => rfl) (fun _ => rfl) le_rfl hnum hes

/-- A new dentry below root_dentry, named after an entry. -/
theorem Tidy.addDentry (h : Tidy s es) (hd : d ∉ s.dentryList) (hroot : .root ∈ s.dentryList)
    {dName : DName} (hname : NamedAfter s es dName p) :
    Tidy (addDentry s d .root dName p) es := by
  have hne : d ≠ .root := fun heq => hd (heq ▸ hroot)
  have hself : (DentryCache.addDentry s d .root dName p).dentry d =
      ⟨some .root, dName, some p, 2⟩ := addDentry_self hne
  have hother : ∀ x, x ≠ d → (DentryCache.addDentry s d .root dName p).dentry x =
      { s.dentry x with dRefcnt := (s.dentry x).dRefcnt + if x = .root then 1 else 0 } :=
    fun x hx => addDentry_of_ne hne hx
  have hinum : ∀ q, ((DentryCache.addDentry s d .root dName p).vol.inode q).iInum =
      (s.vol.inode q).iInum := by
    intro q
    rw [addDentry_inode]
  have hafter : ∀ x q, NamedAfter s es x q →
      NamedAfter (DentryCache.addDentry s d .root dName p) es x q := by
    rintro x q ⟨r, hr, hqstr, hnumber⟩
    exact ⟨r, hr, hqstr, (hinum q).trans hnumber⟩
  refine ⟨fun x hx hxr q hq => ?_, fun x hx hxr hparent => ?_, fun hlinked => ?_⟩
  · by_cases hxd : x = d
    · rw [hxd, hself] at hq ⊢
      obtain rfl : p = q := Option.some.inj hq
      exact hafter _ _ hname
    · have hold := (List.mem_cons.mp hx).resolve_left hxd
      rw [hother x hxd] at hq ⊢
      exact hafter _ _ (h.named x hold hxr q hq)
  · by_cases hxd : x = d
    · rw [hxd, hself]
      exact Option.some_ne_none p
    · rw [hother x hxd] at hparent ⊢
      exact h.hung x ((List.mem_cons.mp hx).resolve_left hxd) hxr hparent
  · rw [hother _ hne.symm] at hlinked ⊢
    have hchildren :
        children (DentryCache.addDentry s d .root dName p) = insert d (children s) := by
      ext x
      rw [Finset.mem_insert, mem_children, mem_children]
      show x ∈ d :: s.dentryList ∧ _ ↔ _
      by_cases hxd : x = d
      · simp [hxd, hne, hself]
      · simp [hxd, hother]
    have hnew : d ∉ children s := fun hmem => hd (mem_children.mp hmem).1
    have hold := h.counted hlinked
    rw [hchildren, Finset.card_insert_of_notMem hnew]
    show _ < (s.dentry .root).dRefcnt + if DentryPtr.root = .root then 1 else 0
    rw [if_pos rfl]
    push_cast
    omega

/-- A dentry below root_dentry, or root_dentry itself, is unlinked. -/
theorem Tidy.unlinkDentry (h : Tidy s es) (hd : d ∈ s.dentryList)
    (hparent : (s.dentry d).dParent = some .root) (p : InodePtr) :
    Tidy (unlinkDentry s d .root p) es := by
  have hother : ∀ x, x ≠ d → (DentryCache.unlinkDentry s d .root p).dentry x =
      { s.dentry x with dRefcnt := (s.dentry x).dRefcnt - if x = .root then 1 else 0 } :=
    fun x hx => unlinkDentry_of_ne hx
  refine ⟨fun x hx hxr q hq => ?_, fun x hx hxr hp => ?_, fun hlinked => ?_⟩
  · by_cases hxd : x = d
    · rw [hxd, unlinkDentry_self] at hq
      cases hq
    · rw [hother x hxd] at hq ⊢
      obtain ⟨r, hr, hqstr, hinum⟩ := h.named x hx hxr q hq
      refine ⟨r, hr, hqstr, ?_⟩
      rw [unlinkDentry_inode]
      exact hinum
  · by_cases hxd : x = d
    · rw [hxd, unlinkDentry_self] at hp
      exact absurd rfl hp
    · rw [hother x hxd] at hp ⊢
      exact h.hung x hx hxr hp
  · by_cases hroot : DentryPtr.root = d
    · rw [← hroot, unlinkDentry_self] at hlinked
      exact absurd rfl hlinked
    · rw [hother _ hroot] at hlinked ⊢
      have hchildren : children (DentryCache.unlinkDentry s d .root p) = (children s).erase d := by
        ext x
        rw [Finset.mem_erase, mem_children, mem_children]
        show x ∈ s.dentryList ∧ _ ↔ _
        by_cases hxd : x = d
        · simp [hxd, unlinkDentry_self]
        · simp [hxd, hother]
      have hmem : d ∈ children s := mem_children.mpr ⟨hd, Ne.symm hroot, hparent⟩
      have hold := h.counted hlinked
      have hcard := Finset.card_erase_add_one hmem
      rw [hchildren]
      show _ < (s.dentry .root).dRefcnt - if DentryPtr.root = .root then 1 else 0
      rw [if_pos rfl]
      omega

/-- A dentry leaves dentry_list. -/
theorem Tidy.erase (h : Tidy s es) (d : DentryPtr) {vol : Volume}
    (hnum : ∀ x ∈ s.dentryList, ∀ q, (s.dentry x).dInode = some q →
      (vol.inode q).iInum = (s.vol.inode q).iInum) :
    Tidy { s with vol := vol, dentryList := s.dentryList.erase d } es := by
  refine ⟨fun x hx hxr q hq => ?_, fun x hx => h.hung x (List.mem_of_mem_erase hx),
    fun hlinked => ?_⟩
  · have hmem := List.mem_of_mem_erase hx
    obtain ⟨r, hr, hqstr, hinum⟩ := h.named x hmem hxr q hq
    exact ⟨r, hr, hqstr, (hnum x hmem q hq).trans hinum⟩
  · refine lt_of_le_of_lt ?_ (h.counted hlinked)
    refine Int.ofNat_le.mpr (Finset.card_le_card fun x hx => ?_)
    obtain ⟨hmem, hne, hp⟩ := mem_children.mp hx
    exact mem_children.mpr ⟨List.mem_of_mem_erase hmem, hne, hp⟩

end Names

/-! ## Lookups -/

section Lookups

variable {c : CStr} {r : Option DentryPtr}

/-- The caches, the root directory, and the names of the one in the other. -/
structure Indexed (s : FsState) (es : List Record) : Prop where
  cached : Cached s
  entries : Entries s.vol es
  tidy : Tidy s es

theorem takeWhile_noNul (hnul : ∀ x ∈ c, x ≠ 0) : c.takeWhile (· ≠ 0) = c :=
  List.takeWhile_eq_self_iff.mpr (by simpa using hnul)

/-- A whole name compares equal to the name of an entry that it is. -/
theorem strncmp_name (hne : c ≠ []) (hnul : ∀ x ∈ c, x ≠ 0) (q : Record) :
    strncmp c q.entry.name c.length = 0 ↔ c = q.name := by
  show strncmp c (padded q.name) c.length = 0 ↔ _
  rw [strncmp, if_neg (List.length_pos_iff.mpr hne).ne',
    strncmpLoop_eq_zero fun i hi => charAt_ne_zero hnul hi]
  simp only [charAt_padded]
  constructor
  · exact eq_of_charAt hnul q.noNul
  · intro heq i _
    rw [heq]

/-- The search of get_dentry returns for names of 24 characters at most. -/
theorem lookupDisk_ok {dname : QStr} {pos : Int} {inum : Nat}
    (h : lookupDisk s p dname env = .ok (pos, inum)) :
    dname.len < maxDentryLength ∧ strlen dname.name ≤ maxDentryLength ∧ ∃ de,
      findDirEntry s.vol.disk (s.vol.inode p)
        ⟨env.deInode, 0, dname.len, 0, dname.name.takeWhile (· ≠ 0)⟩ = .ok (pos, de) ∧
      inum = de.inode := by
  simp only [lookupDisk, lookupEntry, bind_eq_ok, assert_eq_ok, pure_eq_ok, Except.ok.injEq,
    Prod.mk.injEq] at h
  obtain ⟨_, hlen, target, ⟨name, hname, rfl⟩, ⟨pos', de⟩, hfind, rfl, rfl⟩ := h
  obtain ⟨hle, rfl⟩ := strncpy_ok hname
  exact ⟨hlen, hle, de, hfind, rfl⟩

/-- What it says about the entries of the root directory. -/
theorem lookup_name (h : Named s.vol es) (hne : c ≠ []) (hnul : ∀ x ∈ c, x ≠ 0) {pos : Int}
    {inum : Nat} (hlook : lookupDisk s .root ⟨c.length, c⟩ env = .ok (pos, inum)) :
    (pos < 0 ∧ ∀ q ∈ es, q.name ≠ c) ∨ 0 ≤ pos ∧ ∃ q ∈ es, q.name = c ∧ q.inode = inum := by
  obtain ⟨-, -, de, hfind, rfl⟩ := lookupDisk_ok hlook
  rw [takeWhile_noNul hnul] at hfind
  rcases h.listing.search ⟨env.deInode, 0, c.length, 0, c⟩ with
    ⟨k, hk, hcmp, hsearch⟩ | ⟨hnone, hsearch⟩
  · rw [hfind] at hsearch
    cases hsearch
    refine .inr ⟨Int.natCast_nonneg _, es[k], List.getElem_mem hk, ?_, rfl⟩
    exact ((strncmp_name hne hnul _).mp hcmp).symm
  · rw [hfind] at hsearch
    cases hsearch
    have hneg : (-1 : Int) < 0 := by decide
    refine .inl ⟨hneg, fun q hq heq => hnone q hq ?_⟩
    exact (strncmp_name hne hnul q).mpr heq.symm

theorem addDentry_onDisk {dName : DName} (q : InodePtr) :
    onDisk ((addDentry s d .root dName p).vol.inode q) = onDisk (s.vol.inode q) := by
  rw [addDentry_inode]
  rfl

/-- get_dentry of a whole name below root_dentry. -/
theorem Indexed.getDentry (h : Indexed s es) (hne : c ≠ []) (hnul : ∀ x ∈ c, x ≠ 0)
    (hspare : AliasLists.ReadsIn s .root ⟨c.length, c⟩ env →
      0 ≤ (s.vol.inode (AliasLists.nextInode s env)).iRefcnt)
    (hget : getDentry s .root ⟨c.length, c⟩ env = .ok (r, s')) : Indexed s' es := by
  have hcached := h.cached.getDentry hspare hget
  obtain ⟨dir, hdir, ⟨x, -, -, rfl⟩ | ⟨-, pos, inum, hlook, ⟨-, -, rfl⟩ |
    ⟨hpos, q, vol, x, dName, hinode, -, hfresh, hcopy, -, rfl⟩⟩⟩ := getDentry_ok hget
  · exact ⟨hcached, h.entries, h.tidy.addRef x⟩
  · exact h
  obtain rfl : dir = .root := h.cached.top dir hdir
  obtain ⟨hneg, -⟩ | ⟨-, e, he, hname, hinum⟩ := lookup_name h.entries.toNamed hne hnul hlook
  · omega
  obtain ⟨hdisk, hnumber⟩ := getInode_reads hinode
  obtain ⟨-, hlen, hchars⟩ := copyName_ok hcopy
  rw [takeWhile_noNul hnul] at hchars
  have hqstr : dName.toQStr = ⟨e.name.length, e.name⟩ := by
    show (⟨dName.len, dName.name⟩ : QStr) = _
    rw [hlen, hchars, hname]
  have hentries := h.entries.getInode h.cached.through hinode
  refine ⟨hcached, hentries.recount rfl (addDentry_onDisk .root), ?_⟩
  have hvol : Tidy { s with vol := vol } es := by
    refine h.tidy.volume (fun x hx q' hq' => ?_) fun _ hr => hr
    have hmem := h.cached.linked x hx q' hq'
    rcases getInode_ok hinode with ⟨-, rfl⟩ | ⟨-, -, hnot, inode, -, rfl⟩
    · by_cases hqq : q' = q
      · subst hqq
        simp only [Volume.setInode, Function.update_self]
      · exact congrArg Inode.iInum (Function.update_of_ne hqq ..)
    · exact congrArg Inode.iInum (Function.update_of_ne (ne_of_mem_of_not_mem hmem hnot) ..)
  exact hvol.addDentry hfresh h.cached.rooted.root ⟨e, he, hqstr, hnumber.trans hinum.symm⟩

/-- The dentry is linked to the inode of that entry. -/
def LinkedTo (s : FsState) (d : DentryPtr) (e : Record) : Prop :=
  ∃ p, (s.dentry d).dInode = some p ∧ (s.vol.inode p).iInum = e.inode

/-- A cached dentry that a name finds is linked to the file of the entry of that name. -/
theorem Indexed.findDentry_some (h : Indexed s es) (hc : IsName c)
    (hfind : findDentry s .root ⟨c.length, c⟩ = some d) :
    d ≠ .root ∧ ∃ q ∈ es, q.name = c ∧ LinkedTo s d q := by
  obtain ⟨hmem, hcmp, -, hparent⟩ := DentryCache.findDentry_some hfind
  have hroot : d ≠ .root := h.cached.rooted.find_ne_root hc hfind
  have hlinked := h.tidy.hung d hmem hroot (hparent ▸ Option.some_ne_none _)
  obtain ⟨q, hq⟩ := Option.ne_none_iff_exists'.mp hlinked
  obtain ⟨e, he, hqstr, hnum⟩ := h.tidy.named d hmem hroot q hq
  obtain ⟨hlen, hcmp⟩ := qstrcmp_eq_zero hcmp
  rw [hqstr] at hlen hcmp
  refine ⟨hroot, e, he, ?_, q, hq, hnum⟩
  rw [strncmp, if_neg (List.length_pos_iff.mpr e.nonempty).ne',
    strncmpLoop_eq_zero fun i hi => charAt_ne_zero e.noNul hi] at hcmp
  exact eq_of_charAt e.noNul hc.noNul hcmp

/-- A name that get_dentry finds is the name of an entry, whose file it gets to. -/
theorem Indexed.getDentry_some (h : Indexed s es) (hc : IsName c) (hne : c ≠ [])
    (hget : DentryCache.getDentry s .root ⟨c.length, c⟩ env = .ok (some d, s')) :
    d ≠ .root ∧ ∃ q ∈ es, q.name = c ∧ LinkedTo s' d q := by
  obtain ⟨dir, hdir, ⟨x, hfind, hr, rfl⟩ | ⟨-, pos, inum, hlook, ⟨-, hr, -⟩ |
    ⟨hpos, q, vol, x, dName, hinode, hx, -, -, hr, rfl⟩⟩⟩ := getDentry_ok hget
  · obtain rfl := Option.some.inj hr
    obtain ⟨hroot, e, he, hname, p, hp, hnum⟩ := h.findDentry_some hc hfind
    refine ⟨hroot, e, he, hname, p, ?_, hnum⟩
    rw [addRef_self]
    exact hp
  · cases hr
  · obtain rfl := Option.some.inj hr
    obtain rfl : dir = .root := h.cached.top dir hdir
    obtain ⟨hneg, -⟩ | ⟨-, e, he, hname, hinum⟩ :=
      lookup_name h.entries.toNamed hne hc.noNul hlook
    · omega
    have hroot : d ≠ .root := by
      rw [hx]
      exact DentryPtr.noConfusion
    refine ⟨hroot, e, he, hname, q, ?_, ?_⟩
    · rw [addDentry_self hroot]
    · rw [addDentry_inode]
      exact (getInode_reads hinode).2.trans hinum.symm

end Lookups

/-! ## New files -/

section NewFiles

variable {c : CStr}

/-- A file without links that no entry names and no dentry holds. -/
structure New (s : FsState) (es : List Record) (p : InodePtr) : Prop where
  mem : p ∈ s.vol.inodeList
  notRoot : p ≠ .root
  spare : held s p < (s.vol.inode p).iRefcnt
  number : ∀ r ∈ es, r.inode ≠ (s.vol.inode p).iInum
  nlink : (s.vol.inode p).iNlink = 0

theorem Indexed.newInodeOf (h : Indexed s es) (hfree : ∃ n < tableSize, ¬InodeBit s.vol.disk n)
    (hnew : newInodeOf s 123 env = .ok (p, s')) : Indexed s' es ∧ New s' es p := by
  obtain ⟨hcached, hmem, hspare⟩ := h.cached.newInodeOf hfree hnew
  obtain ⟨vol, hcreate, rfl⟩ := newInodeOf_ok hnew
  obtain ⟨hentries, -, -, hroot, hnumber, hlink⟩ :=
    h.entries.createInode h.cached.through hcreate hfree (by decide)
  obtain ⟨-, hfresh, n, disk, -, -, -, hinode, -⟩ := createInode_ok hcreate
  refine ⟨⟨hcached, hentries, ?_⟩, hmem, hroot, hspare, hnumber, hlink⟩
  refine h.tidy.congr rfl (fun _ => rfl) (fun _ => rfl) (fun _ => rfl) le_rfl (fun x hx q hq => ?_)
    fun _ hr => hr
  have hqp : q ≠ p := ne_of_mem_of_not_mem (h.cached.linked x hx q hq) hfresh
  show (vol.inode q).iInum = _
  rw [hinode, Function.update_of_ne hqp]

/-- The entry that create_dentry adds for `c`. -/
theorem exists_record (h : Cached s) (hp : p ∈ s.vol.inodeList) (hc : Component c) :
    ∃ r : Record, r.name = c ∧ r.inode = (s.vol.inode p).iInum ∧
      r.entry = ⟨(s.vol.inode p).iInum, 32, c.length, ftRegFile, padded c⟩ := by
  obtain ⟨hne, hlt, -⟩ := h.through.used p hp
  have hsmall : (s.vol.inode p).iInum < 2 ^ 32 := hlt.trans (by decide)
  exact ⟨record c _ ⟨hc.isName.noNul, hc.nonempty, hc.short⟩ ⟨hne, hsmall⟩, rfl, rfl, rfl⟩

/-- The file whose entry was added gets its dentry and its first link. -/
theorem countLink_entries {r : Record} {dName : DName} (hv : Through s.vol)
    (hnamed : Named s.vol (es ++ [r])) (hlinked : Linked s.vol.disk es)
    (hzero : InodeBit s.vol.disk 0) (hnew : New s es p) (hnum : r.inode = (s.vol.inode p).iInum)
    (hcount : countLink (addDentry s d .root dName p) p env = .ok s') :
    Entries s'.vol (es ++ [r]) := by
  have hself : (addDentry s d .root dName p).vol.inode p =
      { s.vol.inode p with iRefcnt := (s.vol.inode p).iRefcnt + 1 } := by
    rw [addDentry_inode, if_pos rfl]
  have hpos : 0 < (s.vol.inode p).iRefcnt + 1 := by
    have hheld := held_nonneg s p
    have hspare := hnew.spare
    omega
  have hv' : Through (addDentry s d .root dName p).vol := Through.addInodeRef hv 1 fun _ _ => hpos
  have hnamed' : Named (addDentry s d .root dName p).vol (es ++ [r]) :=
    hnamed.recount rfl (addDentry_onDisk .root)
  obtain ⟨disk', hrec, rfl⟩ := countLink_ok hcount
  refine hnamed'.countLink hv' hlinked hzero hnew.mem hnew.notRoot ?_ ?_ ?_ hrec
  · rw [hself]
    exact hnum
  · rw [hself]
    exact hnew.number
  · rw [hself]
    exact hnew.nlink

theorem Tidy.countLink (h : Tidy s es) (hcount : countLink s p env = .ok s') : Tidy s' es := by
  obtain ⟨disk, -, rfl⟩ := countLink_ok hcount
  refine h.volume (fun _ _ q _ => ?_) fun _ hq => hq
  by_cases hq : q = p
  · rw [hq]
    simp only [Volume.setInode, Function.update_self]
  · exact congrArg Inode.iInum (Function.update_of_ne hq ..)

/-- create_dentry adds the name to the root directory and to the cache. -/
theorem Indexed.createDentry (h : Indexed s es) (hnew : New s es p) (hc : Component c)
    (hcreate : createDentry s .root ⟨c.length, c⟩ p env = .ok (some d, s')) :
    d ≠ .root ∧ ∃ r : Record, r.name = c ∧ Indexed s' (es ++ [r]) := by
  have hcached := h.cached.createDentry hnew.mem hnew.spare hcreate
  have hthrough := h.cached.through
  obtain ⟨_, -, hr⟩ | ⟨hget, dir, name, ret, disk, dirInode, x, dName, hdir, hname, hadd, hx,
    hfresh, hcopy, hr, hcount⟩ := createDentry_ok hcreate
  · cases hr
  obtain rfl := Option.some.inj hr
  obtain rfl : dir = .root := h.cached.top dir hdir
  obtain ⟨-, rfl⟩ := strncpy_ok hname
  obtain ⟨-, hlen, hchars⟩ := copyName_ok hcopy
  rw [takeWhile_noNul hc.isName.noNul] at hadd hchars
  obtain ⟨r, hrname, hrnum, hentry⟩ := exists_record h.cached hnew.mem hc
  have hadd' : addDirEntry s.vol.disk (s.vol.inode .root) r.entry (env.ptrs 1) =
      .ok (ret, disk, dirInode) := by
    have hchar : ∀ i, charAt c i = charAt r.entry.name i := by
      intro i
      rw [hentry]
      exact (charAt_padded c i).symm
    rw [← hadd, ← addDirEntry_congr hchar, hentry]
  -- no entry has the name yet
  obtain ⟨-, pos, inum, hlook, hneg⟩ := getDentry_misses h.cached hget
  have hother : ∀ q ∈ es, q.name ≠ r.name := by
    obtain ⟨-, hnone⟩ | ⟨hpos, -⟩ :=
      lookup_name h.entries.toNamed hc.nonempty hc.isName.noNul hlook
    · rw [hrname]
      exact hnone
    · omega
  have hslash : slash ∉ r.name := fun hmem => (hc.isName slash (hrname ▸ hmem)).2 rfl
  have hnamed := h.entries.toNamed.add hthrough hslash hother hadd'
  obtain ⟨hlinked, hmap⟩ := linked_add h.entries.linked hthrough hadd
  have hv : Through { s.vol.setInode .root dirInode with disk := disk } :=
    hthrough.addDirEntry hthrough.root.1 hadd
  -- the numbers and the new file are as before
  have hfile : (s.vol.setInode .root dirInode).inode p = s.vol.inode p :=
    Function.update_of_ne hnew.notRoot ..
  have hnums : ∀ q, ((s.vol.setInode .root dirInode).inode q).iInum = (s.vol.inode q).iInum := by
    intro q
    by_cases hq : q = .root
    · rw [hq]
      simp only [Volume.setInode, Function.update_self]
      exact (addDirEntry_same hadd).1
    · exact congrArg Inode.iInum (Function.update_of_ne hq ..)
  let s₁ : FsState := { s with vol := { s.vol.setInode .root dirInode with disk := disk } }
  have hnew' : New s₁ es p := by
    refine ⟨hnew.mem, hnew.notRoot, ?_, ?_, ?_⟩
    · show held s p < ((s.vol.setInode .root dirInode).inode p).iRefcnt
      rw [hfile]
      exact hnew.spare
    · show ∀ r ∈ es, r.inode ≠ ((s.vol.setInode .root dirInode).inode p).iInum
      rw [hfile]
      exact hnew.number
    · show ((s.vol.setInode .root dirInode).inode p).iNlink = 0
      rw [hfile]
      exact hnew.nlink
  have hqstr : dName.toQStr = ⟨r.name.length, r.name⟩ := by
    show (⟨dName.len, dName.name⟩ : QStr) = _
    rw [hlen, hchars, hrname]
  have htidy : Tidy s₁ (es ++ [r]) :=
    h.tidy.volume (fun _ _ q _ => hnums q) fun _ hq => List.mem_append_left _ hq
  have hnum : r.inode = (s₁.vol.inode p).iInum := hrnum.trans (hnums p).symm
  have hafter : NamedAfter s₁ (es ++ [r]) dName p :=
    ⟨r, List.mem_append_right es (List.mem_singleton_self r), hqstr, hnum.symm⟩
  have hroot : d ≠ .root := fun heq => hfresh (heq ▸ h.cached.rooted.root)
  refine ⟨hroot, r, hrname, hcached, ?_, ?_⟩
  · exact countLink_entries hv hnamed hlinked (zero_congr h.entries.zero hmap) hnew' hnum hcount
  · exact (htidy.addDentry hfresh h.cached.rooted.root hafter).countLink hcount

end NewFiles

/-! ## The last component -/

section Last

variable {c : CStr} {flags : UInt32} {r : Option DentryPtr}

/-- The last part of sys_open, for a component. -/
theorem Indexed.openLast (h : Indexed s es) (hc : Component c)
    (hspare : AliasLists.ReadsIn s .root ⟨c.length, c⟩ env →
      0 ≤ (s.vol.inode (AliasLists.nextInode s env)).iRefcnt)
    (hfree : oCreat flags = true → findDentry s .root ⟨c.length, c⟩ = none →
      (∃ pos inum, lookupDisk s .root ⟨c.length, c⟩ env = .ok (pos, inum) ∧ pos < 0) →
        ∃ n < tableSize, ¬InodeBit s.vol.disk n)
    (hlast : openLast s .root ⟨c.length, c⟩ flags env = .ok (r, s')) :
    (∃ es', Indexed s' es') ∧ ∀ d, r = some d → d ≠ .root := by
  obtain ⟨d, rfl, hget⟩ | ⟨hget, ⟨-, rfl, rfl⟩ | ⟨hcreat, d, p, s₁, rfl, hnew, hcreate⟩⟩ :=
    openLast_ok hlast
  · obtain ⟨hroot, -⟩ := h.getDentry_some hc.isName hc.nonempty hget
    refine ⟨⟨es, h.getDentry hc.nonempty hc.isName.noNul hspare hget⟩, fun x hx => ?_⟩
    exact Option.some.inj hx ▸ hroot
  · refine ⟨⟨es, h⟩, fun x hx => ?_⟩
    cases hx
  · obtain ⟨hnone, hmiss⟩ := getDentry_misses h.cached hget
    obtain ⟨h₁, hfile⟩ := h.newInodeOf (hfree hcreat hnone hmiss) hnew
    obtain ⟨hroot, e, -, h'⟩ := h₁.createDentry hfile hc hcreate
    refine ⟨⟨es ++ [e], h'⟩, fun x hx => ?_⟩
    exact Option.some.inj hx ▸ hroot

end Last

/-! ## Dentries that are put -/

section Puts

variable {c : CStr} {path : Pathname} {r : Option DentryPtr}

/-- Below root_dentry no dentry is linked to the root inode. -/
theorem Indexed.inode_ne_root (h : Indexed s es) (hd : d ∈ s.dentryList) (hne : d ≠ .root)
    (hp : (s.dentry d).dInode = some p) : p ≠ .root := by
  rintro rfl
  obtain ⟨r, hr, -, hinum⟩ := h.tidy.named d hd hne _ hp
  rw [h.cached.through.root.2] at hinum
  exact (h.entries.linked r hr).1 hinum.symm

theorem Indexed.addRef (h : Indexed s es) (d : DentryPtr) : Indexed (addRef s d 1) es :=
  ⟨h.cached.addRef d 1, h.entries, h.tidy.addRef d⟩

/-- Nothing changes but files and descriptors. -/
theorem Indexed.same (h : Indexed s es) (hcached : Cached s') (hvol : s'.vol = s.vol)
    (hdentry : s'.dentry = s.dentry) (hlist : s'.dentryList = s.dentryList) : Indexed s' es := by
  refine ⟨hcached, hvol ▸ h.entries, ?_⟩
  refine h.tidy.congr hlist ?_ ?_ ?_ ?_ (fun _ _ _ _ => by rw [hvol]) fun _ hr => hr
  · intro x
    rw [hdentry]
  · intro x
    rw [hdentry]
  · intro x
    rw [hdentry]
  · rw [hdentry]

/-- put_dentry of a listed dentry. -/
theorem Indexed.putDentry (h : Indexed s es) (hd : d ∈ s.dentryList)
    (hput : putDentry s d env = .ok s') : Indexed s' es := by
  have hcached := h.cached.putDentry hd hput
  obtain ⟨-, parent, p, hparent, hp, hend⟩ := putDentry_ok hput
  obtain rfl : parent = .root :=
    Option.some.inj (hparent.symm.trans (h.cached.rooted.parent_of_put hd hput))
  have hunlink := h.tidy.unlinkDentry hd hparent p
  have hentries : Entries (DentryCache.unlinkDentry s d .root p).vol es := by
    refine h.entries.recount rfl ?_
    rw [unlinkDentry_inode]
    rfl
  obtain ⟨-, rfl⟩ | ⟨-, hne, vol, hvol, rfl⟩ := hend
  · exact ⟨hcached, hentries, hunlink⟩
  have hcut := (h.cached.unlinkDentry hd hp .root).1
  have hmem : p ∈ (DentryCache.unlinkDentry s d .root p).vol.inodeList := h.cached.linked d hd p hp
  have hpr : p ≠ .root := h.inode_ne_root hd hne hp
  obtain ⟨-, hothers, hlast⟩ := hcut.through.putInode hmem hvol
  refine ⟨hcached, hentries.putInode hcut.through hmem hpr hvol, ?_⟩
  refine hunlink.erase d fun x hx q hq => ?_
  by_cases hqp : q = p
  · rcases hlast with ⟨-, hsame⟩ | ⟨hone, -, -⟩
    · rw [hqp, hsame]
    · -- another dentry still holds the inode
      have hheld := held_of_link (s := DentryCache.unlinkDentry s d .root p) hx (hqp ▸ hq)
      have hspare := (h.cached.unlinkDentry hd hp .root).2 hne
      split_ifs at hheld
      · omega
      · omega
  · rw [hothers q hqp]

/-- _close of a listed dentry. -/
theorem Indexed.close (h : Indexed s es) (hd : d ∈ s.dentryList)
    (hclose : close s d env = .ok s') : Indexed s' es := by
  have hparent : (s.dentry d).dParent = some .root := by
    simp only [DentryCache.close, bind_eq_ok] at hclose
    obtain ⟨s₁, hput, -⟩ := hclose
    exact h.cached.rooted.parent_of_put hd hput
  rw [close_eq_putDentry hparent] at hclose
  exact h.putDentry hd hclose

theorem Indexed.opendir (h : Indexed s es) (hdir : opendir s path env = .ok (r, s')) :
    Indexed s' es := by
  obtain ⟨-, ⟨-, -, rfl⟩ | ⟨-, -, -, hclose⟩⟩ := opendir_ok hdir
  · exact h.addRef .root
  · exact (h.addRef .root).close h.cached.rooted.root hclose

/-- _open walks to root_dentry, or to one name below it. -/
theorem Indexed.openPath (h : Indexed s es) (hspare : Spare s (pathFirst (rest path)) env)
    (hopen : openPath s path env = .ok (r, s')) : Indexed s' es := by
  obtain ⟨-, ⟨-, -, rfl⟩ | ⟨hne, ⟨x, -, hlen, hget⟩ | ⟨-, -, hclose⟩⟩⟩ := openPath_ok hopen
  · exact h.addRef .root
  · have hname : pathFirst (rest path) = ⟨(rest path).length, rest path⟩ := by
      rw [← hlen]
      rfl
    rw [Spare, hname] at hspare
    rw [hname] at hget
    exact (h.addRef .root).getDentry hne (rest_noNul path) hspare hget
  · exact (h.addRef .root).close h.cached.rooted.root hclose

end Puts

end RxdOs.Fs.NamedCache
