import Mathlib.Logic.Relation
import PokuOS.Vfs

/-!
# What a lookup finds

`vfs_lookup` splits into the choice of a starting point, which goes by the mount table and the
text of the path, and a walk from it, which goes by the tokens between the slashes. The walk
without its allocations is `Vfs.walkTokens`; a lookup that returns a dentry has found what the
walk finds, and with enough memory it does return it.
-/

namespace PokuOS

open CallM List Option

/-! ## Tokens -/

theorem pathTokens_nil : pathTokens [] = [] := rfl

/-- The tokens of a path that goes on after a slash. -/
theorem pathTokens_append (a b : CStr) :
    pathTokens (a ++ slash :: b) = a.splitOn slash ++ pathTokens b := by
  unfold pathTokens
  rw [splitOn_append_cons_self, getLast?_append_of_ne_nil _ (splitOn_ne_nil _ _)]
  split
  · rw [dropLast_append_of_ne_nil (splitOn_ne_nil _ _)]
  · rfl

/-- Between slashes every token is looked up, and after the last one unless it is empty. -/
theorem splitOn_eq_pathTokens (a : CStr) :
    ∃ empty, a.splitOn slash = pathTokens a ++ empty ∧ (empty = [] ∨ empty = [[]]) := by
  unfold pathTokens
  split
  · rename_i hlast
    obtain ⟨init, hinit⟩ := getLast?_eq_some_iff.mp hlast
    refine ⟨[[]], ?_, .inr rfl⟩
    rw [hinit, dropLast_concat]
  · exact ⟨[], (append_nil _).symm, .inl rfl⟩

/-- No token is longer than the path. -/
theorem length_le_of_mem_splitOn {path t : CStr} (h : t ∈ path.splitOn slash) :
    t.length ≤ path.length := by
  induction path generalizing t with
  | nil =>
    rw [splitOn_nil, mem_singleton] at h
    rw [h]
  | cons c path ih =>
    rw [splitOn_eq_splitOnP, splitOnP_cons_eq_if_modifyHead] at h
    rw [← splitOn_eq_splitOnP] at h
    rw [length_cons]
    split at h
    · rcases mem_cons.mp h with rfl | h
      · exact Nat.zero_le _
      · exact (ih h).trans (Nat.le_succ _)
    · cases hsplit : path.splitOn slash with
      | nil => exact absurd hsplit (splitOn_ne_nil _ _)
      | cons u us =>
        rw [hsplit, modifyHead_cons] at h
        rcases mem_cons.mp h with rfl | h
        · exact Nat.succ_le_succ (ih (hsplit ▸ mem_cons_self))
        · exact (ih (hsplit ▸ mem_cons_of_mem _ h)).trans (Nat.le_succ _)

theorem length_le_of_mem_pathTokens {path t : CStr} (h : t ∈ pathTokens path) :
    t.length ≤ path.length := by
  obtain ⟨empty, hsplit, _⟩ := splitOn_eq_pathTokens path
  exact length_le_of_mem_splitOn (hsplit ▸ mem_append_left _ h)

theorem length_skipSlash_le (path : CStr) : (skipSlash path).length ≤ path.length := by
  unfold skipSlash
  split
  · rw [length_tail]
    exact Nat.sub_le _ _
  · exact le_rfl

theorem skipSlash_append {a : CStr} (ha : a ≠ []) (b : CStr) :
    skipSlash (a ++ b) = skipSlash a ++ b := by
  cases a with
  | nil => exact absurd rfl ha
  | cons c a =>
    unfold skipSlash
    rw [cons_append, head?_cons, head?_cons]
    split <;> rfl

/-! ## Walks -/

variable {name : CStr} {base d : DentryId}

namespace Vfs

variable (v : Vfs)

/-- The child with this name that `vfs_lookup_component` finds. -/
def childNamed (dir : DentryId) (name : CStr) : Option DentryId := do
  let inode ← v.inodeOf dir
  if inode.iOp.isSome then (v.vfsGenericLookup name inode.iChildren).join else none

/-- The walk of `vfs_lookup_from`. -/
def walkTokens (base : DentryId) (tokens : List CStr) : Option DentryId :=
  tokens.foldlM v.childNamed base

/-- A dentry in another's list of children. -/
def IsChild (a b : DentryId) : Prop := ∃ inode, v.inodeOf a = some inode ∧ b ∈ inode.iChildren

/-- `d` is `a`, or lies below it. -/
def Subtree (a d : DentryId) : Prop := Relation.ReflTransGen v.IsChild a d

/-- Where `vfs_lookup` and `vfs_create` start. -/
def lookupBase (path : CStr) : Option DentryId :=
  v.vfsRoot.map fun vfsRoot => (v.mountRoot path).getD vfsRoot

/-- The path `vfs_lookup` follows from there. -/
def lookupRest (path : CStr) : CStr :=
  if (v.mountRoot path).isSome then v.mountRest path else path

/-- What `vfs_lookup` finds when nothing stands in its way. -/
def lookup (path : CStr) : Option DentryId := do
  let base ← v.lookupBase path
  v.walkTokens base (pathTokens (skipSlash (v.lookupRest path)))

variable {v}

theorem vfsGenericLookup_some {children : List DentryId} {c : DentryId}
    (h : v.vfsGenericLookup name children = some (some c)) :
    c ∈ children ∧ ∃ dentry, v.dentry c = some dentry ∧ dentry.dName = name := by
  induction children with
  | nil => cases h
  | cons child children ih =>
    unfold vfsGenericLookup at h
    split at h
    · cases h
    · rename_i dentry hdentry
      split at h
      · rename_i hname
        obtain rfl : child = c := by simpa using h
        exact ⟨mem_cons_self, dentry, hdentry, hname⟩
      · obtain ⟨hmem, hc⟩ := ih h
        exact ⟨mem_cons_of_mem _ hmem, hc⟩

theorem isChild_of_childNamed {dir c : DentryId} (h : v.childNamed dir name = some c) :
    v.IsChild dir c := by
  obtain ⟨inode, hinode, h⟩ := bind_eq_some_iff.mp h
  split at h
  · obtain hfound := join_eq_some_iff.mp h
    exact ⟨inode, hinode, (vfsGenericLookup_some hfound).1⟩
  · cases h

/-- **A walk stays in the subtree it starts from.** -/
theorem subtree_of_walkTokens {tokens : List CStr} (h : v.walkTokens base tokens = some d) :
    v.Subtree base d := by
  induction tokens generalizing base with
  | nil =>
    cases h
    exact .refl
  | cons t tokens ih =>
    obtain ⟨c, hc, h⟩ := bind_eq_some_iff.mp h
    exact .head (isChild_of_childNamed hc) (ih h)

/-- A walk over two lists of tokens stops in between. -/
theorem walkTokens_append {ts us : List CStr} :
    v.walkTokens base (ts ++ us) = some d ↔
      ∃ c, v.walkTokens base ts = some c ∧ v.walkTokens c us = some d := by
  unfold walkTokens
  rw [foldlM_append]
  exact bind_eq_some_iff

end Vfs

/-! ## Lookups that return -/

variable {w w' : Work} {root : CStr}

section Lookup

variable {pool : Pool}

theorem withBlock_cases {α : Type} {n : ℕ} {body : VfsM α} {r : Option α}
    (h : withBlock pool n body w = some (r, w')) :
    (pool.give w.held n = none ∧ r = none ∧ w' = w) ∨
      ∃ block w1, pool.give w.held n = some block ∧
        body { w with held := n :: w.held } = some (r, w1) ∧ w' = w1.kfree n := by
  unfold withBlock at h
  split at h
  · rename_i hnone
    cases h
    exact .inl ⟨hnone, rfl, rfl⟩
  · rename_i block hblock
    obtain ⟨⟨r', w1⟩, hbody, h⟩ := map_eq_some_iff.mp h
    cases h
    exact .inr ⟨block, w1, hblock, hbody, rfl⟩

theorem kfree_held (w : Work) (n : ℕ) : ({ w with held := n :: w.held } : Work).kfree n = w := by
  simp [Work.kfree]

/-- A body that only reads gives its block back. -/
theorem readOnly_withBlock {α : Type} (n : ℕ) {body : VfsM α} (h : ReadOnly body) :
    ReadOnly (withBlock pool n body) := by
  intro w w' r hrun
  rcases withBlock_cases hrun with ⟨_, _, rfl⟩ | ⟨block, w1, _, hbody, rfl⟩
  · rfl
  · rw [h hbody]
    exact kfree_held w n

theorem readOnly_vfsLookupComponent (dir : DentryId) (name : CStr) :
    ReadOnly (vfsLookupComponent pool dir name) := by
  refine (readOnly_deref _).bind fun inode => (readOnly_check _).bind fun _ => ?_
  refine readOnly_withBlock _ (readOnly_withBlock _ fun w w' r h => ?_)
  obtain ⟨_, _, h⟩ := map_eq_some_iff.mp h
  exact (Prod.mk.inj h).2.symm

theorem readOnly_vfsLookupFrom (base : DentryId) (path : CStr) :
    ReadOnly (vfsLookupFrom pool base path) := by
  unfold vfsLookupFrom
  split
  · exact readOnly_pure _
  · exact readOnly_withBlock _ (ReadOnly.foldlM readOnly_vfsLookupComponent _ _)

theorem readOnly_vfsLookup (root path : CStr) : ReadOnly (vfsLookup pool root path) := by
  refine (readOnly_check _).bind fun _ => readOnly_get.bind fun w =>
    (readOnly_ofOption _).bind fun vfsRoot => (readOnly_check _).bind fun _ => ?_
  split
  · exact readOnly_vfsLookupFrom _ _
  · exact readOnly_vfsLookupFrom _ _

/-- A body that only reads returns a value if there is memory for the block. -/
theorem withBlock_some_iff {α : Type} {n : ℕ} {body : VfsM α} (hread : ReadOnly body) {a : α} :
    withBlock pool n body w = some (some a, w') ↔
      (pool.give w.held n).isSome ∧
        body { w with held := n :: w.held } = some (some a, { w with held := n :: w.held }) ∧
        w' = w := by
  constructor
  · intro h
    obtain rfl := readOnly_withBlock n hread h
    rcases withBlock_cases h with ⟨_, hr, _⟩ | ⟨block, w1, hblock, hbody, _⟩
    · cases hr
    · obtain rfl := hread hbody
      exact ⟨isSome_iff_exists.mpr ⟨block, hblock⟩, hbody, rfl⟩
  · rintro ⟨hgive, hbody, rfl⟩
    obtain ⟨block, hblock⟩ := isSome_iff_exists.mp hgive
    unfold withBlock
    rw [hblock]
    simp only [hbody, map_some, kfree_held]

/-- There is memory for a dentry with this name. -/
def Pool.HasDentry (pool : Pool) (held : List ℕ) (name : CStr) : Prop :=
  (pool.give held dentrySize).isSome ∧ (pool.give (dentrySize :: held) (name.length + 1)).isSome

/-- There is memory for following a path. -/
def Pool.HasPath (pool : Pool) (held : List ℕ) (path : CStr) : Prop :=
  skipSlash path = [] ∨
    (pool.give held ((skipSlash path).length + 1)).isSome ∧
      ∀ t ∈ pathTokens (skipSlash path), pool.HasDentry (((skipSlash path).length + 1) :: held) t

/-- The comparison of `vfs_lookup_component` with the children. -/
theorem readOnly_genericLookup (name : CStr) (children : List DentryId) :
    ReadOnly (fun w : Work => (w.vfs.vfsGenericLookup name children).map fun child =>
      (child, w)) := by
  intro w w' r h
  obtain ⟨_, _, h⟩ := map_eq_some_iff.mp h
  exact (Prod.mk.inj h).2.symm

/-- **`vfs_lookup_component` returns the child with the name**, if there is memory for a copy. -/
theorem component_some_iff {dir c : DentryId} :
    vfsLookupComponent pool dir name w = some (some c, w') ↔
      w.vfs.childNamed dir name = some c ∧ pool.HasDentry w.held name ∧ w' = w := by
  constructor
  · intro h
    obtain ⟨inode, hinode, h1⟩ := deref_bind h
    obtain ⟨hop, h2⟩ := check_bind_some h1
    have hread := readOnly_genericLookup name inode.iChildren
    obtain ⟨hdentry, h3, hw⟩ := (withBlock_some_iff (readOnly_withBlock _ hread)).mp h2
    obtain ⟨hname, h4, _⟩ := (withBlock_some_iff hread).mp h3
    obtain ⟨child, hfound, h5⟩ := map_eq_some_iff.mp h4
    obtain ⟨rfl, _⟩ := Prod.mk.inj h5
    refine ⟨bind_eq_some_iff.mpr ⟨inode, hinode, ?_⟩, ⟨hdentry, hname⟩, hw⟩
    rw [if_pos hop]
    exact join_eq_some_iff.mpr hfound
  · rintro ⟨h, ⟨hdentry, hname⟩, rfl⟩
    obtain ⟨inode, hinode, h1⟩ := bind_eq_some_iff.mp h
    split at h1
    · rename_i hop
      have hderef := deref_apply (f := fun w : Work => w.vfs.inodeOf dir) (s := w') hinode
      refine (bind_value hderef _).trans ((bind_value (check_pos hop w') _).trans ?_)
      have hread := readOnly_genericLookup name inode.iChildren
      refine (withBlock_some_iff (readOnly_withBlock _ hread)).mpr ⟨hdentry, ?_, rfl⟩
      refine (withBlock_some_iff hread).mpr ⟨hname, ?_, rfl⟩
      rw [join_eq_some_iff.mp h1]
      rfl
    · cases h1

theorem foldlM_some_iff {tokens : List CStr} :
    tokens.foldlM (vfsLookupComponent pool) base w = some (some d, w') ↔
      w.vfs.walkTokens base tokens = some d ∧ (∀ t ∈ tokens, pool.HasDentry w.held t) ∧
        w' = w := by
  induction tokens generalizing base with
  | nil =>
    constructor
    · intro h
      obtain ⟨hd, rfl⟩ := Prod.mk.inj (some.inj h)
      exact ⟨hd, nofun, rfl⟩
    · rintro ⟨h, _, rfl⟩
      cases h
      rfl
  | cons t tokens ih =>
    rw [foldlM_cons]
    constructor
    · intro h
      obtain ⟨c, hc, hrest⟩ := (readOnly_vfsLookupComponent base t).bind_some_cases h
      obtain ⟨hchild, hmemory, _⟩ := component_some_iff.mp hc
      obtain ⟨hwalk, hmemories, hw⟩ := ih.mp hrest
      exact ⟨bind_eq_some_iff.mpr ⟨c, hchild, hwalk⟩,
        forall_mem_cons.mpr ⟨hmemory, hmemories⟩, hw⟩
    · rintro ⟨h, hmemory, rfl⟩
      obtain ⟨c, hc, hwalk⟩ := bind_eq_some_iff.mp h
      obtain ⟨hhead, htail⟩ := forall_mem_cons.mp hmemory
      rw [bind_value (component_some_iff.mpr ⟨hc, hhead, rfl⟩)]
      exact ih.mpr ⟨hwalk, htail, rfl⟩

/-- **`vfs_lookup_from` returns what the walk finds.** -/
theorem lookupFrom_some_iff {path : CStr} :
    vfsLookupFrom pool base path w = some (some d, w') ↔
      w.vfs.walkTokens base (pathTokens (skipSlash path)) = some d ∧
        pool.HasPath w.held path ∧ w' = w := by
  unfold vfsLookupFrom
  by_cases hempty : skipSlash path = []
  · rw [if_pos hempty, hempty, pathTokens_nil]
    constructor
    · intro h
      obtain ⟨hd, rfl⟩ := Prod.mk.inj (some.inj h)
      exact ⟨hd, .inl hempty, rfl⟩
    · rintro ⟨h, _, rfl⟩
      cases h
      rfl
  · rw [if_neg hempty,
      withBlock_some_iff (ReadOnly.foldlM readOnly_vfsLookupComponent _ _), foldlM_some_iff]
    constructor
    · rintro ⟨hcopy, ⟨hwalk, hmemory, _⟩, rfl⟩
      exact ⟨hwalk, .inr ⟨hcopy, hmemory⟩, rfl⟩
    · rintro ⟨hwalk, hmemory, rfl⟩
      obtain ⟨hcopy, hmemory⟩ := hmemory.resolve_left hempty
      exact ⟨hcopy, ⟨hwalk, hmemory, rfl⟩, rfl⟩

/-- `vfs_lookup` as a test and a walk. -/
theorem vfsLookup_eq {path : CStr} (hpath : path ≠ []) (hallow : rootAllows root path) :
    vfsLookup pool root path w =
      match w.vfs.lookupBase path with
      | none => some (none, w)
      | some base => vfsLookupFrom pool base (w.vfs.lookupRest path) w := by
  refine (bind_value (check_pos hpath w) _).trans ?_
  rw [CallM.get_bind]
  unfold Vfs.lookupBase Vfs.lookupRest
  cases w.vfs.vfsRoot with
  | none => rfl
  | some vfsRoot =>
    refine (bind_value (check_pos hallow w) _).trans ?_
    cases w.vfs.mountRoot path <;> rfl

/-- A path the root does not allow is not looked up. -/
theorem vfsLookup_denied {path : CStr} (hallow : ¬rootAllows root path) (w : Work) :
    vfsLookup pool root path w = some (none, w) := by
  by_cases hpath : path ≠ []
  · refine (bind_value (check_pos hpath w) _).trans ?_
    rw [CallM.get_bind]
    cases w.vfs.vfsRoot with
    | none => rfl
    | some vfsRoot => exact bind_null (check_neg hallow w) _
  · exact bind_null (check_neg hpath w) _

/-- **`vfs_lookup` returns what the walk finds**, for a path the task may use. -/
theorem vfsLookup_some_iff {path : CStr} :
    vfsLookup pool root path w = some (some d, w') ↔
      path ≠ [] ∧ rootAllows root path ∧ w.vfs.lookup path = some d ∧
        pool.HasPath w.held (w.vfs.lookupRest path) ∧ w' = w := by
  by_cases hpath : path ≠ []
  · by_cases hallow : rootAllows root path
    · rw [vfsLookup_eq hpath hallow, Vfs.lookup]
      cases w.vfs.lookupBase path with
      | none => exact ⟨nofun, nofun⟩
      | some base =>
        refine lookupFrom_some_iff.trans ?_
        exact ⟨fun h => ⟨hpath, hallow, h⟩, fun h => h.2.2⟩
    · rw [vfsLookup_denied hallow]
      exact ⟨nofun, fun h => absurd h.2.1 hallow⟩
  · have hnull : vfsLookup pool root path w = some (none, w) := bind_null (check_neg hpath w) _
    rw [hnull]
    exact ⟨nofun, fun h => absurd h.1 hpath⟩

/-! ## Enough memory -/

/-- Every request that physical memory could meet is met. -/
def Pool.Ample (pool : Pool) : Prop :=
  ∀ held n, 0 < n → n < numPages * pageSize → (pool.give held n).isSome

theorem Pool.ample_ample : Pool.ample.Ample := fun _ _ hpos hlt =>
  isSome_iff_exists.mpr ⟨_, if_pos ⟨hpos, hlt⟩⟩

theorem Pool.Ample.hasPath (hpool : pool.Ample) (held : List ℕ) {path : CStr}
    (hlen : path.length + 1 < numPages * pageSize) : pool.HasPath held path := by
  have hskip := length_skipSlash_le path
  refine .inr ⟨hpool _ _ (Nat.succ_pos _) (by omega), fun t ht => ?_⟩
  have htoken := length_le_of_mem_pathTokens ht
  exact ⟨hpool _ _ (by decide) (by decide), hpool _ _ (Nat.succ_pos _) (by omega)⟩

theorem Vfs.length_lookupRest_le (v : Vfs) (path : CStr) :
    (v.lookupRest path).length ≤ path.length := by
  unfold lookupRest mountRest
  split
  · rw [length_drop]
    exact Nat.sub_le _ _
  · exact le_rfl

/-- **With enough memory `vfs_lookup` returns what the walk finds.** -/
theorem vfsLookup_of_lookup (hpool : pool.Ample) {path : CStr} (hpath : path ≠ [])
    (hallow : rootAllows root path) (hlen : path.length + 1 < numPages * pageSize)
    (h : w.vfs.lookup path = some d) : vfsLookup pool root path w = some (some d, w) := by
  have hrest := w.vfs.length_lookupRest_le path
  exact vfsLookup_some_iff.mpr ⟨hpath, hallow, h, hpool.hasPath _ (by omega), rfl⟩

end Lookup

/-! ## Mounts -/

namespace Vfs

variable {path : CStr}

/-- The length of the path of a mount, if there is one. -/
def mountLength (best : Option MountNode) : ℕ := best.elim 0 fun m => m.path.length

/-- The loop of `vfs_find_mount`: what it starts with is kept or replaced by a longer mount, the
first of its length in the list, and no mount the path is within is longer. -/
theorem foldl_betterMount (path : CStr) (mounts : List MountNode) (best : Option MountNode) :
    (mounts.foldl (betterMount path) best = best ∨
        ∃ newer m older, mounts = newer ++ m :: older ∧
          mounts.foldl (betterMount path) best = some m ∧ pathIsWithin path m.path ∧
          mountLength best < m.path.length ∧
          ∀ n ∈ newer, pathIsWithin path n.path → n.path.length < m.path.length) ∧
      mountLength best ≤ mountLength (mounts.foldl (betterMount path) best) ∧
      ∀ m ∈ mounts, pathIsWithin path m.path →
        m.path.length ≤ mountLength (mounts.foldl (betterMount path) best) := by
  induction mounts generalizing best with
  | nil => exact ⟨.inl rfl, le_rfl, nofun⟩
  | cons node mounts ih =>
    obtain ⟨hcase, hle, hmax⟩ := ih (betterMount path best node)
    rw [foldl_cons]
    by_cases hbetter : pathIsWithin path node.path ∧ mountLength best < node.path.length
    · have hstep : betterMount path best node = some node := if_pos hbetter
      rw [hstep] at hcase hle hmax ⊢
      refine ⟨.inr ?_, hbetter.2.le.trans hle, ?_⟩
      · rcases hcase with hcase | ⟨newer, m, older, rfl, hcase, hin, hlong, hfirst⟩
        · exact ⟨[], node, mounts, rfl, hcase, hbetter.1, hbetter.2, nofun⟩
        · refine ⟨node :: newer, m, older, rfl, hcase, hin, hbetter.2.trans hlong, fun n hn => ?_⟩
          rcases mem_cons.mp hn with rfl | hn
          · exact fun _ => hlong
          · exact hfirst n hn
      · intro m hm hin
        rcases mem_cons.mp hm with rfl | hm
        · exact hle
        · exact hmax m hm hin
    · have hstep : betterMount path best node = best := if_neg hbetter
      have hnode : pathIsWithin path node.path → node.path.length ≤ mountLength best :=
        fun hin => Nat.not_lt.mp fun hlt => hbetter ⟨hin, hlt⟩
      rw [hstep] at hcase hle hmax ⊢
      refine ⟨?_, hle, ?_⟩
      · rcases hcase with hcase | ⟨newer, m, older, rfl, hcase, hin, hlong, hfirst⟩
        · exact .inl hcase
        · refine .inr ⟨node :: newer, m, older, rfl, hcase, hin, hlong, fun n hn => ?_⟩
          rcases mem_cons.mp hn with rfl | hn
          · exact fun hin => (hnode hin).trans_lt hlong
          · exact hfirst n hn
      · intro m hm hin
        rcases mem_cons.mp hm with rfl | hm
        · exact (hnode hin).trans hle
        · exact hmax m hm hin

variable {m : MountNode}

/-- **The mount that is found**: one the path is within, and the newest of its length. -/
theorem findMount_split {v : Vfs} (h : v.findMount path = some m) :
    ∃ newer older, v.mounts = newer ++ m :: older ∧ pathIsWithin path m.path ∧
      ∀ n ∈ newer, pathIsWithin path n.path → n.path.length < m.path.length := by
  rcases (foldl_betterMount path v.mounts none).1 with
    hnone | ⟨newer, m', older, hsplit, hsome, hin, -, hfirst⟩
  · cases hnone.symm.trans h
  · obtain rfl : m' = m := some.inj (hsome.symm.trans h)
    exact ⟨newer, older, hsplit, hin, hfirst⟩

/-- The mount that is found is one the path is within. -/
theorem findMount_some {v : Vfs} (h : v.findMount path = some m) :
    m ∈ v.mounts ∧ pathIsWithin path m.path := by
  obtain ⟨newer, older, hsplit, hin, -⟩ := findMount_split h
  exact ⟨hsplit ▸ mem_append_cons_self, hin⟩

/-- No mount the path is within is longer than the one that is found. -/
theorem length_le_findMount {v : Vfs} (hm : m ∈ v.mounts) (hin : pathIsWithin path m.path) :
    m.path.length ≤ mountLength (v.findMount path) :=
  (foldl_betterMount path v.mounts none).2.2 m hm hin

/-- Two paths within the same mounts are found the same mount. -/
theorem findMount_congr {v : Vfs} {path' : CStr}
    (h : ∀ m ∈ v.mounts, pathIsWithin path m.path = pathIsWithin path' m.path) :
    v.findMount path = v.findMount path' := by
  unfold findMount
  refine foldl_ext _ _ _ fun best m hm => ?_
  unfold betterMount
  rw [h m hm]

end Vfs

/-! ## Opening -/

section Open

variable {pool : Pool}

variable {i : InodeId}

/-- Opening a file does not change which file it is. -/
theorem fDentry_memfsOpen {f f' : File} (h : memfsOpen i f w = some (some f', w')) :
    f'.fDentry = f.fDentry := by
  rw [memfsOpen, CallM.get_bind] at h
  obtain ⟨min, _, h⟩ := ofOption_bind_some h
  by_cases htrunc : f.fFlags &&& oTrunc ≠ 0
  · rw [if_pos htrunc, modify_bind] at h
    obtain ⟨hf, _⟩ := Prod.mk.inj (some.inj h)
    rw [← some.inj hf]
  · rw [if_neg htrunc] at h
    obtain ⟨hf, _⟩ := Prod.mk.inj (some.inj h)
    rw [← some.inj hf]

theorem fDentry_fileOpen {f f' : File} (h : fileOpen pool i f w = some (some f', w')) :
    f'.fDentry = f.fDentry := by
  unfold fileOpen at h
  cases hop : f.fOp with
  | none =>
    rw [hop] at h
    obtain ⟨hf, _⟩ := Prod.mk.inj (some.inj h)
    rw [← some.inj hf]
  | some op =>
    rw [hop] at h
    cases op with
    | ramfs =>
      obtain ⟨hf, _⟩ := Prod.mk.inj (some.inj h)
      rw [← some.inj hf]
    | tarfs =>
      obtain ⟨_, _, _, h⟩ := bind_some_cases h
      obtain ⟨hf, _⟩ := Prod.mk.inj (some.inj h)
      rw [← some.inj hf]
    | memfs => exact fDentry_memfsOpen h

theorem fDentry_newFile {flags : ℕ} {f : File} (h : newFile pool d i flags w = some (some f, w')) :
    f.fDentry = d := by
  obtain ⟨inode, _, h1⟩ := deref_bind h
  obtain ⟨_, w1, _, h2⟩ := bind_some_cases h1
  rcases onNull_cases h2 with ⟨_, _, hr, _⟩ | ⟨f', hopen, hf⟩
  · cases hr
  · cases hf
    exact fDentry_fileOpen hopen

/-- A file that is opened is the one that is looked up. -/
theorem lookup_of_vfsOpen {path : CStr} {flags : ℕ} {f : File}
    (h : vfsOpen pool root path flags w = some (some f, w')) :
    vfsLookup pool root path w = some (some f.fDentry, w) := by
  obtain ⟨d, hd, h1⟩ := (readOnly_vfsLookup root path).bind_some_cases h
  obtain ⟨dentry, _, h2⟩ := deref_bind h1
  obtain ⟨i, _, h3⟩ := ofOption_bind_some h2
  rw [fDentry_newFile h3]
  exact hd

/-- What cannot be looked up cannot be opened. -/
theorem vfsOpen_of_null {path : CStr} (flags : ℕ)
    (h : vfsLookup pool root path w = some (none, w)) :
    vfsOpen pool root path flags w = some (none, w) := bind_null h _

end Open

end PokuOS
