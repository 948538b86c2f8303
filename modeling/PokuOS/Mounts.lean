import PokuOS.Chroot
import PokuOS.VfsCreate

/-!
# Mounts and roots

`fs/mount.c` from `vfs_mount` on, and what a task with a root of its own gets from a path that
begins with a slash.

`vfs_find_mount` answers with the longest mount path the path is within, component by component,
and with the newest of equal ones. `resolve_path` puts a slash between root and path, also if
the path has one: the component between the two slashes is empty, and `vfs_lookup` looks it up.
-/

namespace PokuOS

open CallM List Option

/-! ## Mounting -/

/-- `sizeof(struct mount_node)`. -/
def mountNodeSize : ℕ := 116

/-- `vfs_mount`. -/
def vfsMount (pool : Pool) (path : CStr) (sb : SuperBlock) : VfsM Unit := do
  let _ ← kmalloc pool mountNodeSize
  let _ ← onNull (kmalloc pool (path.length + 1)) fun w => w.kfree mountNodeSize
  modify fun w => { w with vfs := { w.vfs with mounts := ⟨path, sb⟩ :: w.vfs.mounts } }

/-- Calls of `vfs_mount`, and the mounts they have made, the newest first. -/
inductive Mounting : List MountNode → Work → Prop where
  /-- nothing is mounted yet -/
  | nil {w : Work} : w.vfs.mounts = [] → Mounting [] w
  /-- a call makes one more mount -/
  | mount {ns : List MountNode} {w w' : Work} {pool : Pool} {path : CStr} {sb : SuperBlock} :
      Mounting ns w → vfsMount pool path sb w = some (some (), w') →
      Mounting (⟨path, sb⟩ :: ns) w'
  /-- memory is short -/
  | fail {ns : List MountNode} {w w' : Work} {pool : Pool} {path : CStr} {sb : SuperBlock} :
      Mounting ns w → vfsMount pool path sb w = some (none, w') → Mounting ns w'

/-- `path` is `mount`, or goes on with a slash after it. -/
def ComponentPrefix (mount path : CStr) : Prop :=
  path = mount ∨ ∃ rest, path = mount ++ slash :: rest

/-- A call puts its mount first, or changes nothing. -/
theorem mounts_vfsMount {pool : Pool} {path : CStr} {sb : SuperBlock} {w w' : Work}
    {r : Option Unit} (h : vfsMount pool path sb w = some (r, w')) :
    r = none ∧ w'.vfs.mounts = w.vfs.mounts ∨
      r = some () ∧ w'.vfs.mounts = ⟨path, sb⟩ :: w.vfs.mounts := by
  rcases bind_cases h with ⟨hnull, rfl⟩ | ⟨_, w1, hnode, h⟩
  · exact .inl ⟨rfl, congrArg Vfs.mounts (vfs_kmalloc hnull)⟩
  rcases bind_cases h with ⟨hnull, rfl⟩ | ⟨_, w2, hpath, h⟩
  · rcases onNull_cases hnull with ⟨w2, hmalloc, -, rfl⟩ | ⟨_, _, hr⟩
    · exact .inl ⟨rfl, congrArg Vfs.mounts ((vfs_kmalloc hmalloc).trans (vfs_kmalloc hnode))⟩
    · cases hr
  rcases onNull_cases hpath with ⟨_, _, hr, _⟩ | ⟨_, hmalloc, -⟩
  · cases hr
  · cases h
    rw [← vfs_kmalloc hnode, ← vfs_kmalloc hmalloc]
    exact .inr ⟨rfl, rfl⟩

/-- The mount table lists the mounts that were made. -/
theorem Mounting.mounts_eq {ns : List MountNode} {w : Work} (h : Mounting ns w) :
    w.vfs.mounts = ns := by
  induction h with
  | nil hw => exact hw
  | mount _ hcall ih =>
    rcases mounts_vfsMount hcall with ⟨hr, _⟩ | ⟨_, hmounts⟩
    · cases hr
    · rw [hmounts, ih]
  | fail _ hcall ih =>
    rcases mounts_vfsMount hcall with ⟨_, hmounts⟩ | ⟨hr, _⟩
    · rw [hmounts, ih]
    · cases hr

/-- **`vfs_find_mount` finds the longest component prefix.** After any calls of `vfs_mount` with
absolute paths that do not end in a slash, it finds a mount exactly when the path has one of them
as a component prefix; the one it finds is the longest, and the newest of that length. The rest
is what follows, which is empty or begins with a slash. -/
theorem findMount_longest {ns : List MountNode} {w : Work} (hrun : Mounting ns w)
    (hpaths : ∀ n ∈ ns, n.path.head? = some slash ∧ n.path.getLast? ≠ some slash) (path : CStr) :
    (w.vfs.findMount path = none ↔ ∀ n ∈ ns, ¬ComponentPrefix n.path path) ∧
      (w.vfs.findMount path = none → w.vfs.mountRest path = path) ∧
      ∀ m, w.vfs.findMount path = some m →
        (∃ newer older, ns = newer ++ m :: older ∧ ComponentPrefix m.path path ∧
          (∀ n ∈ newer, ComponentPrefix n.path path → n.path.length < m.path.length) ∧
          ∀ n ∈ older, ComponentPrefix n.path path → n.path.length ≤ m.path.length) ∧
        path = m.path ++ w.vfs.mountRest path ∧
        (w.vfs.mountRest path = [] ∨ (w.vfs.mountRest path).head? = some slash) := by
  have hns := hrun.mounts_eq
  refine ⟨⟨fun hnone n hn hprefix => ?_, fun hno => ?_⟩, fun hnone => ?_, fun m hm => ?_⟩
  · have hle := Vfs.length_le_findMount (hns ▸ hn) (pathIsWithin_iff.mpr hprefix)
    rw [hnone] at hle
    have hempty : n.path = [] := length_eq_zero_iff.mp (Nat.le_zero.mp hle)
    have habs := (hpaths n hn).1
    rw [hempty] at habs
    cases habs
  · cases hm : w.vfs.findMount path with
    | none => rfl
    | some m =>
      obtain ⟨hmem, hin⟩ := Vfs.findMount_some hm
      exact absurd (pathIsWithin_iff.mp hin) (hno m (hns ▸ hmem))
  · rw [Vfs.mountRest, hnone]
    rfl
  · obtain ⟨newer, older, hsplit, hin, hfirst⟩ := Vfs.findMount_split hm
    have hprefix := pathIsWithin_iff.mp hin
    refine ⟨⟨newer, older, hns.symm.trans hsplit, hprefix, ?_, ?_⟩, ?_⟩
    · exact fun n hn h => hfirst n hn (pathIsWithin_iff.mpr h)
    · intro n hn h
      have hmem : n ∈ w.vfs.mounts :=
        hsplit ▸ mem_append_right _ (mem_cons_of_mem _ hn)
      have hle := Vfs.length_le_findMount hmem (pathIsWithin_iff.mpr h)
      rw [hm] at hle
      exact hle
    · have hrest : w.vfs.mountRest path = path.drop m.path.length := by
        rw [Vfs.mountRest, hm]
        rfl
      rw [hrest]
      rcases hprefix with rfl | ⟨rest, rfl⟩
      · rw [drop_length]
        exact ⟨(append_nil _).symm, .inl rfl⟩
      · rw [drop_left]
        exact ⟨rfl, .inr rfl⟩

/-- The state after these calls of `vfs_mount`, the newest first. -/
def mountedAt (paths : List CStr) : Work where
  vfs := { bootVfs with mounts := paths.map fun path => ⟨path, ⟨some 0⟩⟩ }
  held := paths.flatMap fun path => [path.length + 1, mountNodeSize]

theorem findMount_longest_nested :
    ∃ m, (mountedAt [cstr "/a/b", cstr "/a"]).vfs.findMount (cstr "/a/b/c") = some m ∧
      ComponentPrefix m.path (cstr "/a/b/c") := by
  have ha : vfsMount Pool.ample (cstr "/a") ⟨some 0⟩ (mountedAt []) =
      some (some (), mountedAt [cstr "/a"]) := rfl
  have hb : vfsMount Pool.ample (cstr "/a/b") ⟨some 0⟩ (mountedAt [cstr "/a"]) =
      some (some (), mountedAt [cstr "/a/b", cstr "/a"]) := rfl
  have hspec := findMount_longest (.mount (.mount (.nil rfl) ha) hb) (by decide +kernel)
    (cstr "/a/b/c")
  obtain ⟨⟨_, _, _, hprefix, _⟩, _⟩ := hspec.2.2 ⟨cstr "/a/b", ⟨some 0⟩⟩ rfl
  exact ⟨_, rfl, hprefix⟩

/-! ## A task with a root of its own -/

/-- **No component is empty**: no dentry has an empty name, and in no mount path is a slash
followed by another one or by nothing. -/
structure Vfs.Componentwise (v : Vfs) : Prop where
  /-- the names -/
  names : ∀ d dentry, v.dentry d = some dentry → dentry.dName ≠ []
  /-- the mount paths -/
  mounts : ∀ m ∈ v.mounts, ∀ a b, m.path = a ++ slash :: b → b ≠ [] ∧ b.head? ≠ some slash

variable {v : Vfs}

theorem Vfs.Componentwise.childNamed (h : v.Componentwise) (dir : DentryId) :
    v.childNamed dir [] = none := by
  refine eq_none_iff_forall_ne_some.mpr fun c hc => ?_
  obtain ⟨inode, -, hc⟩ := bind_eq_some_iff.mp hc
  split at hc
  · obtain ⟨-, dentry, hdentry, hname⟩ := vfsGenericLookup_some (join_eq_some_iff.mp hc)
    exact h.names c dentry hdentry hname
  · cases hc

/-- No walk goes through an empty component. -/
theorem Vfs.Componentwise.walkTokens (h : v.Componentwise) {tokens : List CStr}
    (hempty : [] ∈ tokens) (base : DentryId) : v.walkTokens base tokens = none := by
  obtain ⟨ts, us, rfl⟩ := append_of_mem hempty
  refine eq_none_iff_forall_ne_some.mpr fun d hd => ?_
  obtain ⟨c, -, hc⟩ := walkTokens_append.mp hd
  obtain ⟨e, he, -⟩ := bind_eq_some_iff.mp hc
  rw [h.childNamed] at he
  cases he

/-- Two slashes in a row have an empty token between them. -/
theorem nil_mem_pathTokens (y p : CStr) :
    [] ∈ pathTokens (skipSlash (y ++ slash :: slash :: p)) := by
  have hp : pathTokens (slash :: p) = [] :: pathTokens p := pathTokens_append [] p
  cases y with
  | nil =>
    have hskip : skipSlash (slash :: slash :: p) = slash :: p := rfl
    rw [nil_append, hskip, hp]
    exact mem_cons_self
  | cons c y =>
    rw [skipSlash_append (cons_ne_nil _ _), pathTokens_append, hp]
    exact mem_append_right _ mem_cons_self

/-- No mount path covers the second of two slashes. -/
theorem Vfs.Componentwise.lookupRest (h : v.Componentwise) (root p : CStr) :
    ∃ y, v.lookupRest (root ++ slash :: slash :: p) = y ++ slash :: slash :: p := by
  unfold Vfs.lookupRest
  split
  · refine ⟨root.drop (mountLength (v.findMount (root ++ slash :: slash :: p))), ?_⟩
    refine drop_append_of_le_length ?_
    cases hm : v.findMount (root ++ slash :: slash :: p) with
    | none => exact Nat.zero_le _
    | some m =>
      obtain ⟨hmem, hin⟩ := findMount_some hm
      refine Nat.not_lt.mp fun hlong => ?_
      have hroot : pathIsWithin (root ++ slash :: slash :: p) root :=
        pathIsWithin_iff.mpr (.inr ⟨_, rfl⟩)
      rcases pathIsWithin_iff.mp (pathIsWithin_of_length_le hroot hin hlong.le) with
        heq | ⟨rest, heq⟩
      · exact absurd (congrArg length heq) hlong.ne'
      obtain ⟨hne, hhead⟩ := h.mounts m hmem root rest heq
      have hrest : rest <+: slash :: p := by
        have hprefix : m.path <+: root ++ slash :: slash :: p := by
          rcases pathIsWithin_iff.mp hin with heq | ⟨_, heq⟩
          · exact heq ▸ prefix_refl _
          · exact ⟨_, heq.symm⟩
        rw [heq, prefix_append_right_inj, cons_prefix_cons] at hprefix
        exact hprefix.2
      cases rest with
      | nil => exact hne rfl
      | cons c rest => exact hhead (congrArg some (cons_prefix_cons.mp hrest).1)
  · exact ⟨root, rfl⟩

/-- **Two slashes in a row lead nowhere.** -/
theorem Vfs.Componentwise.lookup (h : v.Componentwise) (root p : CStr) :
    v.lookup (root ++ slash :: slash :: p) = none := by
  refine eq_none_iff_forall_ne_some.mpr fun d hd => ?_
  obtain ⟨base, -, hwalk⟩ := bind_eq_some_iff.mp hd
  obtain ⟨y, hy⟩ := h.lookupRest root p
  rw [hy, h.walkTokens (nil_mem_pathTokens y p)] at hwalk
  cases hwalk

end PokuOS
