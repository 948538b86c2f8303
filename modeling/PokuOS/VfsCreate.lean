import PokuOS.Chroot

/-!
# Creating files

What `vfs_create` does, by how far it gets. The dentry is linked into its directory before the
file system is asked to create the file, and **nothing takes it out again**: from that point on
a failure leaves the directory changed.

The parts of the call are taken one by one (`vfsNewDentry_cases`, `inodeCreate_cases`,
`vfs_newFile`), each with all its outcomes, and put together in `vfsCreate_cases`.
-/

namespace PokuOS

open CallM Option

variable {pool : Pool}

/-! ## Parts -/

variable {w w' : Work}

theorem kmalloc_cases {n : ℕ} {r : Option Mem} (h : kmalloc pool n w = some (r, w')) :
    (pool.give w.held n = none ∧ r = none ∧ w' = w) ∨
      ∃ block, pool.give w.held n = some block ∧ r = some block ∧
        w' = { w with held := n :: w.held } := by
  unfold kmalloc at h
  split at h
  · rename_i hnone
    cases h
    exact .inl ⟨hnone, rfl, rfl⟩
  · rename_i block hblock
    cases h
    exact .inr ⟨block, hblock, rfl, rfl⟩

/-- No allocation changes the file system. -/
theorem vfs_kmalloc {n : ℕ} {r : Option Mem} (h : kmalloc pool n w = some (r, w')) :
    w'.vfs = w.vfs := by
  rcases kmalloc_cases h with ⟨_, _, rfl⟩ | ⟨_, _, _, rfl⟩
  · rfl
  · rfl

/-- **`vfs_new_dentry`** has no memory and changes nothing, or links a new dentry. -/
theorem vfsNewDentry_cases {name : CStr} {dir : DentryId} {r : Option DentryId}
    (h : vfsNewDentry pool name dir w = some (r, w')) :
    (¬pool.HasDentry w.held name ∧ r = none ∧ w' = w) ∨
      pool.HasDentry w.held name ∧ r = some w.vfs.nextDentry ∧
        ∃ p, ((w.vfs.dentry dir).bind fun dentry => dentry.dInode) = some p ∧
          w'.vfs = w.vfs.linkDentry name dir p := by
  rcases bind_cases h with ⟨hnull, rfl⟩ | ⟨_, w1, hdentry, h1⟩
  · rcases kmalloc_cases hnull with ⟨hnone, _, rfl⟩ | ⟨_, _, hr, _⟩
    · refine .inl ⟨fun hhas => ?_, rfl, rfl⟩
      rw [Pool.HasDentry, hnone] at hhas
      cases hhas.1
    · cases hr
  rcases kmalloc_cases hdentry with ⟨_, hr, _⟩ | ⟨block, hblock, _, rfl⟩
  · cases hr
  rcases bind_cases h1 with ⟨hnull, rfl⟩ | ⟨_, w2, hname, h2⟩
  · rcases onNull_cases hnull with ⟨w2, hmalloc, _, rfl⟩ | ⟨_, _, hr⟩
    · rcases kmalloc_cases hmalloc with ⟨hnone, _, rfl⟩ | ⟨_, _, hr, _⟩
      · refine .inl ⟨fun hhas => ?_, rfl, kfree_held w dentrySize⟩
        rw [Pool.HasDentry, hnone] at hhas
        cases hhas.2
      · cases hr
    · cases hr
  rcases onNull_cases hname with ⟨_, _, hr, _⟩ | ⟨_, hname, _⟩
  · cases hr
  rcases kmalloc_cases hname with ⟨_, hr, _⟩ | ⟨block', hblock', _, rfl⟩
  · cases hr
  obtain ⟨p, hp, h3⟩ := deref_bind h2
  rw [CallM.get_bind, modify_bind] at h3
  cases h3
  refine .inr ⟨⟨?_, ?_⟩, rfl, p, hp, rfl⟩
  · rw [hblock]
    rfl
  · rw [hblock']
    rfl

/-- The inode of a new file. -/
def newInode (ino mode : ℕ) : Inode where
  iIno := ino
  iMode := mode
  iOp := none
  iFop := some .memfs
  iPrivate := some (.memfs { size := 0, capacity := 0, data := none })
  iChildren := []

namespace Vfs

/-- The next inode gets another number. -/
def bumpIno (v : Vfs) : Vfs := { v with vfsInoNext := (v.vfsInoNext + 1) % 2 ^ 32 }

/-- The dentry `d` gets a new file's inode. -/
def withInode (v : Vfs) (d : DentryId) (mode : ℕ) : Vfs :=
  (v.bumpIno.addInode (newInode v.vfsInoNext mode)).setDentryInode d v.nextInode

end Vfs

variable {d : DentryId} {mode : ℕ}

/-- **`memfs_create`** gives the dentry an inode, or has used up a number at most. -/
theorem memfsCreate_cases {r : Option InodeId} (h : memfsCreate pool d mode w = some (r, w')) :
    (r = none ∧ (w'.vfs = w.vfs ∨ w'.vfs = w.vfs.bumpIno)) ∨
      r = some w.vfs.nextInode ∧ w'.vfs = w.vfs.withInode d mode := by
  rcases bind_cases h with ⟨hnull, rfl⟩ | ⟨_, w1, hinode, h1⟩
  · exact .inl ⟨rfl, .inl (vfs_kmalloc hnull)⟩
  have hvfs1 := vfs_kmalloc hinode
  rw [CallM.get_bind, modify_bind] at h1
  rcases bind_cases h1 with ⟨hnull, rfl⟩ | ⟨_, w2, hmin, h2⟩
  · refine .inl ⟨rfl, .inr ?_⟩
    rcases onNull_cases hnull with ⟨w2, hmalloc, _, rfl⟩ | ⟨_, _, hr⟩
    · refine (vfs_kmalloc hmalloc).trans ?_
      simp only [Vfs.bumpIno, hvfs1]
    · cases hr
  · rcases onNull_cases hmin with ⟨_, _, hr, _⟩ | ⟨_, hmin, _⟩
    · cases hr
    have hvfs2 := vfs_kmalloc hmin
    rw [modify_bind] at h2
    cases h2
    refine .inr ⟨by rw [hvfs1], ?_⟩
    simp only [hvfs2, hvfs1, Vfs.withInode, Vfs.bumpIno, newInode]

/-- **`i_op->create`**: only memfs directories have it. -/
theorem inodeCreate_cases {dir : DentryId} {r : Option InodeId}
    (h : inodeCreate pool dir d mode w = some (r, w')) :
    ∃ inode, w.vfs.inodeOf dir = some inode ∧
      ((r = none ∧ (w'.vfs = w.vfs ∨ w'.vfs = w.vfs.bumpIno)) ∨
        inode.iOp = some .memfs ∧ r = some w.vfs.nextInode ∧
          w'.vfs = w.vfs.withInode d mode) := by
  obtain ⟨inode, hinode, h1⟩ := deref_bind h
  refine ⟨inode, hinode, ?_⟩
  by_cases hop : inode.iOp = some .memfs
  · rw [hop] at h1
    rcases memfsCreate_cases h1 with hnull | hsome
    · exact .inl hnull
    · exact .inr ⟨hop, hsome⟩
  · have hnull : (some (none, w) : Option (Option InodeId × Work)) = some (r, w') := by
      cases hcase : inode.iOp with
      | none =>
        rw [hcase] at h1
        exact h1
      | some op =>
        rw [hcase] at h1 hop
        cases op with
        | ramfs => exact h1
        | tarfs => exact h1
        | memfs => exact absurd rfl hop
    cases hnull
    exact .inl ⟨rfl, .inl rfl⟩

variable {i : InodeId} {r : Option File}

theorem Vfs.setMemfsInode_self {v : Vfs} {min : MemfsInode} (h : v.memfsInode i = some min) :
    v.setMemfsInode i min = v := by
  obtain ⟨inode, hinode, hmin⟩ := bind_eq_some_iff.mp h
  have hself : ({ inode with iPrivate := some (.memfs min) } : Inode) = inode := by
    split at hmin
    · rename_i hprivate
      rw [← some.inj hmin, ← hprivate]
    · cases hmin
  simp only [setMemfsInode, modifyInode, hinode, map_some, hself]
  rw [← hinode, Function.update_eq_self]

/-- A file is opened without being truncated, or it was empty. -/
theorem vfs_fileOpen_empty {f : File} (htrunc : f.fFlags &&& oTrunc ≠ 0 → f.fOp = some .memfs →
      ∀ min, w.vfs.memfsInode i = some min → min.size = 0)
    (h : fileOpen pool i f w = some (r, w')) : w'.vfs = w.vfs := by
  unfold fileOpen at h
  cases hop : f.fOp with
  | none =>
    rw [hop] at h
    rw [(Prod.mk.inj (some.inj h)).2]
  | some op =>
    rw [hop] at h
    cases op with
    | ramfs => rw [(Prod.mk.inj (some.inj h)).2]
    | tarfs =>
      rcases bind_cases h with ⟨hnull, _⟩ | ⟨_, w1, hmalloc, h1⟩
      · exact vfs_kmalloc hnull
      · rw [← (Prod.mk.inj (some.inj h1)).2]
        exact vfs_kmalloc hmalloc
    | memfs =>
      simp only [memfsOpen, CallM.get_bind] at h
      rcases ofOption_bind h with ⟨_, _, rfl⟩ | ⟨min, hmin, h1⟩
      · rfl
      split at h1
      · rename_i hflags
        obtain rfl : ({ w with vfs := w.vfs.setMemfsInode i { min with size := 0 } } : Work) = w' :=
          (Prod.mk.inj (some.inj h1)).2
        have hempty : ({ min with size := 0 } : MemfsInode) = min := by
          rw [← htrunc hflags hop min hmin]
        rw [hempty]
        exact Vfs.setMemfsInode_self hmin
      · rw [(Prod.mk.inj (some.inj h1)).2]

theorem vfs_newFile {flags : ℕ} (hflags : flags &&& oTrunc = 0)
    (h : newFile pool d i flags w = some (r, w')) : w'.vfs = w.vfs := by
  obtain ⟨inode, _, h1⟩ := deref_bind h
  rcases bind_cases h1 with ⟨hnull, _⟩ | ⟨_, w1, hmalloc, h2⟩
  · exact vfs_kmalloc hnull
  · rw [← vfs_kmalloc hmalloc]
    rcases onNull_cases h2 with ⟨w2, hopen, _, rfl⟩ | ⟨_, hopen, _⟩
    · have hvfs := vfs_fileOpen_empty (fun hc => absurd hflags hc) hopen
      exact hvfs
    · exact vfs_fileOpen_empty (fun hc => absurd hflags hc) hopen

/-! ## The call -/

theorem readOnly_createDir (base : DentryId) (rest : CStr) :
    ReadOnly (createDir pool base rest) := by
  unfold createDir
  split
  · exact readOnly_pure _
  · exact readOnly_vfsLookupFrom _ _

theorem readOnly_createParent (base : DentryId) (rest : CStr) :
    ReadOnly (createParent pool base rest) :=
  (readOnly_check _).bind fun _ => (readOnly_createDir base rest).bind fun dir =>
    (readOnly_vfsLookupComponent dir _).absent.bind fun _ => readOnly_pure _

/-- The state once `vfs_create` has copied what is left of the path. -/
def createWork (path : CStr) (w : Work) : Work :=
  { w with held := ((w.vfs.mountRest path).length + 1) :: w.held }

/-- **How far `vfs_create` gets**: it finds the directory `dir`, without the name, and has memory
for a dentry. -/
structure MakesDentry (pool : Pool) (path : CStr) (w : Work) (dir : DentryId) : Prop where
  /-- there is a path -/
  path_ne : path ≠ []
  /-- there is memory for a copy of it -/
  copy : (pool.give w.held ((w.vfs.mountRest path).length + 1)).isSome
  /-- the directory is found -/
  parent : ∃ vfsRoot, w.vfs.vfsRoot = some vfsRoot ∧
    createParent pool ((w.vfs.mountRoot path).getD vfsRoot) (w.vfs.mountRest path)
      (createWork path w) = some (some dir, createWork path w)
  /-- there is memory for the dentry -/
  memory : pool.HasDentry (createWork path w).held (baseName (w.vfs.mountRest path))

variable {path : CStr}

/-- The part of `vfs_create` in which the copy of the path is held. -/
theorem makeDentry_cases {vfsRoot : DentryId} (hpath : path ≠ [])
    (hroot : w.vfs.vfsRoot = some vfsRoot) {r : Option (DentryId × DentryId)}
    (h : withBlock pool ((w.vfs.mountRest path).length + 1) (do
      let dir ← createParent pool ((w.vfs.mountRoot path).getD vfsRoot) (w.vfs.mountRest path)
      let d ← vfsNewDentry pool (baseName (w.vfs.mountRest path)) dir
      return (dir, d)) w = some (r, w')) :
    ((∀ dir, ¬MakesDentry pool path w dir) ∧ r = none ∧ w'.vfs = w.vfs) ∨
      ∃ dir p, MakesDentry pool path w dir ∧ r = some (dir, w.vfs.nextDentry) ∧
        ((w.vfs.dentry dir).bind fun dentry => dentry.dInode) = some p ∧
        w'.vfs = w.vfs.linkDentry (baseName (w.vfs.mountRest path)) dir p := by
  rcases withBlock_cases h with ⟨hnone, rfl, rfl⟩ | ⟨block, w1, hblock, h1, rfl⟩
  · refine .inl ⟨fun dir hmakes => ?_, rfl, rfl⟩
    have hcopy := hmakes.copy
    rw [hnone] at hcopy
    cases hcopy
  have hparentOf : ∀ {dir}, MakesDentry pool path w dir →
      createParent pool ((w.vfs.mountRoot path).getD vfsRoot) (w.vfs.mountRest path)
        (createWork path w) = some (some dir, createWork path w) := by
    intro dir hmakes
    obtain ⟨vfsRoot', hroot', hparent⟩ := hmakes.parent
    obtain rfl : vfsRoot' = vfsRoot := some.inj (hroot'.symm.trans hroot)
    exact hparent
  rcases (readOnly_createParent _ _).bind_cases h1 with ⟨hnull, rfl, rfl⟩ | ⟨dir, hparent, h2⟩
  · refine .inl ⟨fun dir hmakes => ?_, rfl, rfl⟩
    cases (hparentOf hmakes).symm.trans hnull
  have hunique : ∀ {dir'}, MakesDentry pool path w dir' → dir' = dir := by
    intro dir' hmakes
    have heq := (hparentOf hmakes).symm.trans hparent
    exact some.inj (Prod.mk.inj (some.inj heq)).1
  rcases bind_cases h2 with ⟨hnull, rfl⟩ | ⟨d, w2, hd, h3⟩
  · rcases vfsNewDentry_cases hnull with ⟨hno, _, rfl⟩ | ⟨_, hr, _⟩
    · exact .inl ⟨fun dir' hmakes => hno hmakes.memory, rfl, rfl⟩
    · cases hr
  · rcases vfsNewDentry_cases hd with ⟨_, hr, _⟩ | ⟨hmemory, hr, p, hp, hvfs⟩
    · cases hr
    cases h3
    cases hr
    refine .inr ⟨dir, p, ⟨hpath, ?_, ⟨vfsRoot, hroot, hparent⟩, hmemory⟩, rfl, hp, hvfs⟩
    rw [hblock]
    rfl

/-- How a call that has linked a dentry ends, in the file system `v` with the dentry. -/
inductive CreateEnd (v : Vfs) (d : DentryId) (mode : ℕ) : Option File → Vfs → Prop where
  /-- the file system does not create the file, and the dentry is freed -/
  | refused {v' : Vfs} (hv : v' = v ∨ v' = v.bumpIno) :
    CreateEnd v d mode none { v' with dentry := Function.update v'.dentry d none }
  /-- the file is created, but there is no memory to open it -/
  | unopened : CreateEnd v d mode none (v.withInode d mode)
  /-- the file is created and opened -/
  | opened {f : File} (hf : f.fDentry = d) : CreateEnd v d mode (some f) (v.withInode d mode)

/-- **The outcomes of `vfs_create`.** -/
theorem vfsCreate_cases (h : vfsCreate pool path mode w = some (r, w')) :
    ((∀ dir, ¬MakesDentry pool path w dir) ∧ r = none ∧ w'.vfs = w.vfs) ∨
      ∃ dir p, MakesDentry pool path w dir ∧
        ((w.vfs.dentry dir).bind fun dentry => dentry.dInode) = some p ∧
        CreateEnd (w.vfs.linkDentry (baseName (w.vfs.mountRest path)) dir p) w.vfs.nextDentry mode
          r w'.vfs ∧
        (r.isSome → ∃ inode, (w.vfs.linkDentry (baseName (w.vfs.mountRest path)) dir p).inodeOf dir
          = some inode ∧ inode.iOp = some .memfs) := by
  rcases check_bind h with ⟨hpath, rfl, rfl⟩ | ⟨hpath, h1⟩
  · exact .inl ⟨fun dir hmakes => hpath hmakes.path_ne, rfl, rfl⟩
  rw [CallM.get_bind] at h1
  rcases ofOption_bind h1 with ⟨hroot, rfl, rfl⟩ | ⟨vfsRoot, hroot, h2⟩
  · refine .inl ⟨fun dir hmakes => ?_, rfl, rfl⟩
    obtain ⟨_, hroot', _⟩ := hmakes.parent
    cases hroot.symm.trans hroot'
  rcases bind_cases h2 with ⟨hnull, rfl⟩ | ⟨⟨dir, d⟩, w1, hmake, h3⟩
  · rcases makeDentry_cases hpath hroot hnull with ⟨hno, _, hvfs⟩ | ⟨_, _, _, hr, _⟩
    · exact .inl ⟨hno, rfl, hvfs⟩
    · cases hr
  rcases makeDentry_cases hpath hroot hmake with ⟨_, hr, _⟩ | ⟨dir', p, hmakes, hr, hp, hvfs1⟩
  · cases hr
  cases hr
  refine .inr ⟨dir, p, hmakes, hp, ?_⟩
  rw [← hvfs1]
  rcases bind_cases h3 with ⟨hnull, rfl⟩ | ⟨i, w2, hcreate, h4⟩
  · rcases onNull_cases hnull with ⟨w2, hcreate, _, rfl⟩ | ⟨_, _, hr⟩
    · obtain ⟨inode, _, ⟨_, hvfs2⟩ | ⟨_, hr, _⟩⟩ := inodeCreate_cases hcreate
      · exact ⟨.refused hvfs2, nofun⟩
      · cases hr
    · cases hr
  · rcases onNull_cases hcreate with ⟨_, _, hr, _⟩ | ⟨_, hcreate, _⟩
    · cases hr
    obtain ⟨inode, hinode, ⟨hr, _⟩ | ⟨hop, _, hvfs2⟩⟩ := inodeCreate_cases hcreate
    · cases hr
    refine ⟨?_, fun _ => ⟨inode, hinode, hop⟩⟩
    rw [vfs_newFile (by decide) h4, hvfs2]
    cases r with
    | none => exact .unopened
    | some f => exact .opened (fDentry_newFile h4)

/-! ## Directory trees -/

/-- The dentries and inodes form directory trees, one for each mounted file system. -/
structure Vfs.Tree (v : Vfs) : Prop where
  /-- dentries that have not been allocated are not there -/
  freshDentry : ∀ d, v.nextDentry ≤ d → v.dentry d = none
  /-- and neither are inodes -/
  freshInode : ∀ i, v.nextInode ≤ i → v.inode i = none
  /-- every dentry has an inode -/
  hasInode : ∀ d dentry, v.dentry d = some dentry →
    ∃ i inode, dentry.dInode = some i ∧ v.inode i = some inode
  /-- of its own -/
  ownInode : ∀ a b dentry dentry' i, v.dentry a = some dentry → v.dentry b = some dentry' →
    dentry.dInode = some i → dentry'.dInode = some i → a = b
  /-- the children of an inode are dentries -/
  child : ∀ i inode c, v.inode i = some inode → c ∈ inode.iChildren →
    ∃ dentry, v.dentry c = some dentry
  /-- their parent is the dentry of the inode -/
  parent : ∀ d inode c dentry, v.inodeOf d = some inode → c ∈ inode.iChildren →
    v.dentry c = some dentry → dentry.dParent = some d
  /-- and none is its own -/
  notOwnParent : ∀ d dentry, v.dentry d = some dentry → dentry.dParent ≠ some d
  /-- every mounted file system has its root directory -/
  mounted : ∀ m ∈ v.mounts, ∃ d dentry, m.sb.sRoot = some d ∧ v.dentry d = some dentry
  /-- and so has the root file system -/
  root : ∀ d, v.vfsRoot = some d → ∃ dentry, v.dentry d = some dentry

/-- The lists of children are as before. -/
def Vfs.ChildrenKept (v v' : Vfs) : Prop :=
  ∀ i inode, v.inode i = some inode →
    ∃ inode', v'.inode i = some inode' ∧ inode'.iChildren = inode.iChildren

/-- What `createParent` has found out when it returns a directory. -/
theorem createParent_some {base dir : DentryId} {rest : CStr}
    (h : createParent pool base rest w = some (some dir, w')) :
    baseName rest ≠ [] ∧ createDir pool base rest w = some (some dir, w) ∧
      vfsLookupComponent pool dir (baseName rest) w = some (none, w) := by
  obtain ⟨hname, h1⟩ := check_bind_some h
  obtain ⟨dir', hdir, h2⟩ := (readOnly_createDir base rest).bind_some_cases h1
  obtain ⟨_, habsent, h3⟩ :=
    (readOnly_vfsLookupComponent dir' (baseName rest)).absent.bind_some_cases h2
  obtain ⟨hd, _⟩ := Prod.mk.inj (some.inj h3)
  cases hd
  rcases absent_cases habsent with ⟨_, _, hr⟩ | ⟨hnull, _⟩
  · cases hr
  · exact ⟨hname, hdir, hnull⟩

/-- The directory has an inode. -/
theorem MakesDentry.inode {dir : DentryId} {p : InodeId} (h : MakesDentry pool path w dir)
    (hp : ((w.vfs.dentry dir).bind fun dentry => dentry.dInode) = some p) :
    ∃ inode, w.vfs.inode p = some inode ∧ w.vfs.inodeOf dir = some inode := by
  obtain ⟨vfsRoot, _, hparent⟩ := h.parent
  obtain ⟨_, _, hnull⟩ := createParent_some hparent
  obtain ⟨inode, hinode, _⟩ := deref_bind hnull
  have hof : w.vfs.inodeOf dir = some inode := hinode
  obtain ⟨dentry, hdentry, hp⟩ := bind_eq_some_iff.mp hp
  refine ⟨inode, ?_, hof⟩
  rw [Vfs.inodeOf, hdentry] at hof
  simp only [bind_eq_bind, bind_some, hp] at hof
  exact hof

namespace Vfs

variable (v : Vfs) (name : CStr) (dir : DentryId) (p : InodeId)

theorem inode_linkDentry {inode : Inode} (h : v.inode p = some inode) :
    (v.linkDentry name dir p).inode p =
      some { inode with iChildren := v.nextDentry :: inode.iChildren } := by
  simp [linkDentry, modifyInode, h]

theorem inode_linkDentry_of_ne (h : i ≠ p) : (v.linkDentry name dir p).inode i = v.inode i := by
  simp [linkDentry, modifyInode, Function.update_of_ne h]

theorem inode_withInode_of_ne (d : DentryId) (mode : ℕ) (h : i ≠ v.nextInode) :
    (v.withInode d mode).inode i = v.inode i := Function.update_of_ne h _ _

end Vfs

/-- However a call ends that has linked a dentry, the dentry stays in the list. -/
theorem CreateEnd.inode {v v' : Vfs} (h : CreateEnd v d mode r v') (hi : i ≠ v.nextInode) :
    v'.inode i = v.inode i := by
  cases h with
  | refused hv => rcases hv with rfl | rfl <;> rfl
  | unopened => exact v.inode_withInode_of_ne d mode hi
  | opened _ => exact v.inode_withInode_of_ne d mode hi

/-- **When a failed `vfs_create` leaves the tree intact**: exactly when it fails before it links
the dentry. -/
theorem failed_create_keeps_iff {path : CStr} {mode : ℕ} {w w' : Work} (htree : w.vfs.Tree)
    (h : vfsCreate pool path mode w = some (none, w')) :
    w.vfs.ChildrenKept w'.vfs ↔ ∀ dir, ¬MakesDentry pool path w dir := by
  rcases vfsCreate_cases h with ⟨hno, _, hvfs⟩ | ⟨dir, p, hmakes, hp, hend, _⟩
  · refine ⟨fun _ => hno, fun _ => ?_⟩
    rw [hvfs]
    exact fun i inode hinode => ⟨inode, hinode, rfl⟩
  · refine ⟨fun hkept => ?_, fun hno => absurd hmakes (hno dir)⟩
    obtain ⟨inode, hinode, _⟩ := hmakes.inode hp
    have hnew : p ≠ w.vfs.nextInode := by
      rintro rfl
      cases (htree.freshInode _ le_rfl).symm.trans hinode
    obtain ⟨inode', hinode', hchildren⟩ := hkept p inode hinode
    rw [hend.inode hnew, Vfs.inode_linkDentry _ _ _ _ hinode] at hinode'
    cases hinode'
    exact absurd (congrArg List.length hchildren) (by simp)

/-! ## Two failures -/

/-- The file systems of the kernel are directory trees. -/
theorem tree_bootVfs : bootVfs.Tree where
  freshDentry
    | _ + 5, _ => rfl
  freshInode
    | _ + 5, _ => rfl
  hasInode
    | 0, _, h | 1, _, h | 2, _, h | 3, _, h | 4, _, h => by
      cases h
      exact ⟨_, _, rfl, rfl⟩
  ownInode a b dentry dentry' i ha hb hi hi' := by
    have hinode : ∀ d dentry, bootVfs.dentry d = some dentry → dentry.dInode = some d := by
      intro d dentry h
      match d, h with
      | 0, h | 1, h | 2, h | 3, h | 4, h =>
        cases h
        rfl
    exact (some.inj ((hinode a dentry ha).symm.trans hi)).trans
      (some.inj ((hinode b dentry' hb).symm.trans hi')).symm
  child
    | 0, _, _, h, hc | 2, _, _, h, hc => by
      cases h
      obtain rfl := List.mem_singleton.mp hc
      exact ⟨_, rfl⟩
    | 1, _, _, h, hc | 3, _, _, h, hc | 4, _, _, h, hc => by
      cases h
      cases hc
  parent
    | 0, _, _, _, h, hc, hd | 2, _, _, _, h, hc, hd => by
      cases h
      obtain rfl := List.mem_singleton.mp hc
      cases hd
      rfl
    | 1, _, _, _, h, hc, _ | 3, _, _, _, h, hc, _ | 4, _, _, _, h, hc, _ => by
      cases h
      cases hc
  notOwnParent
    | 0, _, h | 1, _, h | 2, _, h | 3, _, h | 4, _, h => by
      cases h
      simp [rootDentry, fileDentry]
  mounted m hm := by
    rcases List.mem_cons.mp hm with rfl | hm
    · exact ⟨4, _, rfl, rfl⟩
    · obtain rfl := List.mem_singleton.mp hm
      exact ⟨2, _, rfl, rfl⟩
  root d h := by
    cases h
    exact ⟨_, rfl⟩

/-- A name that exists is not created, and nothing changes. -/
theorem failed_create_existing :
    ∃ w', vfsCreate Pool.ample (cstr "/mnt/shell.elf") sIfreg bootVfs.enter = some (none, w') ∧
      bootVfs.ChildrenKept w'.vfs := by
  obtain ⟨⟨_, w'⟩, hcreate, rfl⟩ :
      ∃ r ∈ vfsCreate Pool.ample (cstr "/mnt/shell.elf") sIfreg bootVfs.enter, r.1 = none := by
    decide +kernel
  refine ⟨w', hcreate, (failed_create_keeps_iff tree_bootVfs hcreate).mpr ?_⟩
  rintro dir ⟨-, -, ⟨vfsRoot, hroot, hparent⟩, -⟩
  cases hroot
  have hnone : (createParent Pool.ample
      ((bootVfs.enter.vfs.mountRoot (cstr "/mnt/shell.elf")).getD 0)
      (bootVfs.enter.vfs.mountRest (cstr "/mnt/shell.elf"))
      (createWork (cstr "/mnt/shell.elf") bootVfs.enter)).map Prod.fst = some none := by
    decide +kernel
  rw [hparent] at hnone
  cases hnone

/-- **A file cannot be created in the root directory, and a freed dentry stays there**: ramfs has
no `create`. -/
theorem failed_create_dangling :
    ∃ w', vfsCreate Pool.ample (cstr "/new") sIfreg bootVfs.enter = some (none, w') ∧
      ¬bootVfs.ChildrenKept w'.vfs ∧
      ∃ inode, w'.vfs.inode 0 = some inode ∧ inode.iChildren = [5, 1] ∧
        w'.vfs.dentry 5 = none := by
  obtain ⟨⟨_, w'⟩, hcreate, rfl, inode, hinode, hchildren, hfreed⟩ :
      ∃ r ∈ vfsCreate Pool.ample (cstr "/new") sIfreg bootVfs.enter, r.1 = none ∧
        ∃ inode ∈ r.2.vfs.inode 0, inode.iChildren = [5, 1] ∧ r.2.vfs.dentry 5 = none := by
    decide +kernel
  refine ⟨w', hcreate, fun hkept => ?_, inode, hinode, hchildren, hfreed⟩
  obtain ⟨inode', hinode', hsame⟩ := hkept 0 _ rfl
  cases hinode'.symm.trans hinode
  exact absurd (hchildren.symm.trans hsame) (by decide)

end PokuOS
