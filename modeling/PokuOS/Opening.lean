import PokuOS.VfsCreate

/-!
# What opening a file changes

`vfs_open` finds a file; but `memfs_open` truncates one that is opened with `O_TRUNC`, and
`sys_open_fn` makes one that is not there when it is opened with `O_CREAT`.

* `vfs_vfsOpen` — **`vfs_open` changes nothing** if it truncates no file that has a content.
* `HarmlessOpen.vfs` — nor does `sys_open_fn`, if it makes no file either.
-/

namespace PokuOS

open CallM Option

variable {i : InodeId}

namespace Vfs

/-- The `memfs` file at a path. -/
def memfsAt (v : Vfs) (path : CStr) : Option MemfsInode := do
  let d ← v.lookup path
  let dentry ← v.dentry d
  let i ← dentry.dInode
  let inode ← v.inode i
  if inode.iFop = some .memfs then v.memfsInode i else none

end Vfs

/-- **The call changes no file**: it truncates none that has a content, and makes none. -/
structure HarmlessOpen (pool : Pool) (path : CStr) (flags : ℕ) (v : Vfs) : Prop where
  /-- `O_TRUNC` -/
  trunc : flags &&& oTrunc ≠ 0 → ∀ min, v.memfsAt path = some min → min.size = 0
  /-- `O_CREAT` -/
  create : flags &&& oCreat ≠ 0 → ∀ dir, ¬ MakesDentry pool path v.enter dir

section Open

variable {pool : Pool} {root path : CStr} {flags : ℕ} {w w' : Work}

/-- Nothing is left of a file that could not be opened. -/
theorem fileOpen_null {f : File} (h : fileOpen pool i f w = some (none, w')) : w' = w := by
  unfold fileOpen at h
  cases hop : f.fOp with
  | none =>
    rw [hop] at h
    cases h
  | some op =>
    rw [hop] at h
    cases op with
    | ramfs => cases (Prod.mk.inj (some.inj h)).1
    | tarfs =>
      rcases bind_cases h with ⟨hnull, -⟩ | ⟨_, _, -, h1⟩
      · rcases kmalloc_cases hnull with ⟨-, -, rfl⟩ | ⟨_, -, hr, -⟩
        · rfl
        · cases hr
      · cases h1
    | memfs =>
      simp only [memfsOpen, CallM.get_bind] at h
      rcases ofOption_bind h with ⟨-, -, rfl⟩ | ⟨min, -, h1⟩
      · rfl
      · split at h1
        · cases h1
        · cases h1

theorem vfsOpen_null (h : vfsOpen pool root path flags w = some (none, w')) : w' = w := by
  rcases (readOnly_vfsLookup root path).bind_cases h with ⟨-, -, rfl⟩ | ⟨d, -, h1⟩
  · rfl
  obtain ⟨dentry, -, h2⟩ := deref_bind h1
  rcases ofOption_bind h2 with ⟨-, -, rfl⟩ | ⟨i, -, h3⟩
  · rfl
  obtain ⟨inode, -, h4⟩ := deref_bind h3
  rcases bind_cases h4 with ⟨hnull, -⟩ | ⟨_, w1, hmalloc, h5⟩
  · rcases kmalloc_cases hnull with ⟨-, -, rfl⟩ | ⟨_, -, hr, -⟩
    · rfl
    · cases hr
  · rcases kmalloc_cases hmalloc with ⟨-, hr, -⟩ | ⟨_, -, -, rfl⟩
    · cases hr
    · rcases onNull_cases h5 with ⟨w2, hopen, -, rfl⟩ | ⟨_, -, hr⟩
      · rw [fileOpen_null hopen]
        exact kfree_held w _
      · cases hr

variable {r : Option File}

theorem vfs_vfsOpen
    (htrunc : flags &&& oTrunc ≠ 0 → ∀ min, w.vfs.memfsAt path = some min → min.size = 0)
    (h : vfsOpen pool root path flags w = some (r, w')) : w'.vfs = w.vfs := by
  rcases (readOnly_vfsLookup root path).bind_cases h with ⟨-, -, rfl⟩ | ⟨d, hd, h1⟩
  · rfl
  obtain ⟨dentry, hdentry, h2⟩ := deref_bind h1
  rcases ofOption_bind h2 with ⟨-, -, rfl⟩ | ⟨i, hi, h3⟩
  · rfl
  obtain ⟨inode, hinode, h4⟩ := deref_bind h3
  have hlookup : w.vfs.lookup path = some d := (vfsLookup_some_iff.mp hd).2.2.1
  have hat : ∀ min, inode.iFop = some .memfs → w.vfs.memfsInode i = some min →
      w.vfs.memfsAt path = some min := by
    intro min hop hmin
    simp [Vfs.memfsAt, hlookup, hdentry, hi, hinode, hop, hmin]
  rcases bind_cases h4 with ⟨hnull, -⟩ | ⟨_, w1, hmalloc, h5⟩
  · exact vfs_kmalloc hnull
  have hvfs := vfs_kmalloc hmalloc
  have hopen : ∀ {r' w2}, fileOpen pool i ⟨d, 0, flags, inode.iFop, none⟩ w1 = some (r', w2) →
      w2.vfs = w.vfs := by
    intro r' w2 hopen
    refine (vfs_fileOpen_empty (fun hflags hop min hmin => ?_) hopen).trans hvfs
    rw [hvfs] at hmin
    exact htrunc hflags min (hat min hop hmin)
  rcases onNull_cases h5 with ⟨w2, hnull, -, rfl⟩ | ⟨_, hsome, -⟩
  · exact (hopen hnull : w2.vfs = w.vfs)
  · exact hopen hsome

/-- **A harmless call of `sys_open_fn` leaves the file system as it is.** -/
theorem HarmlessOpen.vfs {v : Vfs} {mode : ℕ}
    (hopen : HarmlessOpen pool (resolvePath root path pathSize) flags v)
    (h : sysOpenFile pool root path flags mode v.enter = some (r, w')) : w'.vfs = v := by
  obtain ⟨⟨f, w1⟩, hf, h⟩ := bind_eq_some_iff.mp h
  have hvfs : w1.vfs = v := vfs_vfsOpen (w := v.enter) hopen.trunc hf
  cases hp : createPath pool root path flags v.enter with
  | none =>
    simp only [hp] at h
    cases h
    exact hvfs
  | some p =>
    simp only [hp] at h
    obtain rfl := eq_of_createPath hp
    unfold createPath at hp
    split at hp
    · rename_i hcreate
      obtain ⟨⟨f', w2⟩, hf', hnone⟩ := (any_eq_true _ _).mp hcreate.2
      cases some.inj (hf.symm.trans hf')
      obtain rfl := isNone_iff_eq_none.mp hnone
      obtain rfl := vfsOpen_null hf
      rcases vfsCreate_cases h with ⟨-, -, hv⟩ | ⟨dir, _, hmakes, -⟩
      · exact hv
      · exact absurd hmakes (hopen.create hcreate.1 dir)
    · cases hp

end Open

end PokuOS
