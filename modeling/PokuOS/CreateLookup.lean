import Mathlib.Data.List.Induction
import PokuOS.VfsCreate

/-!
# Creation and lookup

`vfs_create` cuts the last component off a path and looks up what is left of it; `vfs_lookup`
follows the path token by token. The two agree on where a file is **if the path has a slash and
no second one in front of the last component**: an empty token there is looked up by the one
and skipped by the other.

A file that has been created is found by its path, every lookup that succeeded before finds what
it found, and the file cannot be created again.
-/

namespace PokuOS

open CallM List Option Vfs

/-! ## Two ways to read a path -/

variable {x : CStr}

/-- The last token is empty if the path is, or ends with a slash. -/
theorem getLast?_splitOn_iff :
    (x.splitOn slash).getLast? = some [] ↔ x = [] ∨ x.getLast? = some slash := by
  by_cases hx : slash ∈ x
  · obtain ⟨a, b, rfl, hb⟩ := eq_append_of_slash_mem hx
    rw [splitOn_append_cons_self, splitOn_eq_singleton hb, getLast?_concat]
    cases b using reverseRecOn with
    | nil => simp
    | append_singleton b c =>
      have hc : c ≠ slash := fun heq => hb (heq ▸ mem_concat_self)
      have hlast : (a ++ slash :: (b ++ [c])).getLast? = some c := by
        rw [← cons_append, ← append_assoc, getLast?_concat]
      rw [hlast]
      simp [hc]
  · rw [splitOn_eq_singleton hx]
    constructor
    · intro h
      exact .inl (by simpa using h)
    · rintro (rfl | hlast)
      · rfl
      · exact absurd (mem_of_getLast? hlast) hx

theorem pathTokens_of_not_mem (hx : slash ∉ x) (hne : x ≠ []) : pathTokens x = [x] := by
  rw [pathTokens, if_neg, splitOn_eq_singleton hx]
  rw [getLast?_splitOn_iff]
  rintro (h | h)
  · exact hne h
  · exact hx (mem_of_getLast? h)

theorem skipSlash_of_not_mem (hx : slash ∉ x) : skipSlash x = x :=
  if_neg fun h => hx (mem_of_head? h)

theorem dirName_append (a : CStr) {b : CStr} (h : slash ∉ b) : dirName (a ++ slash :: b) = a := by
  have hlt : b.length < (a ++ slash :: b).length := by
    rw [length_append, length_cons]
    omega
  rw [dirName, baseName_append a h, if_pos hlt]
  have hlen : (a ++ slash :: b).length - b.length - 1 = a.length := by
    rw [length_append, length_cons]
    omega
  rw [hlen, take_left]

theorem dirName_of_not_mem (h : slash ∉ x) : dirName x = x := by
  rw [dirName, baseName_of_not_mem h, if_neg (Nat.lt_irrefl _)]

/-- What `vfs_create` and `vfs_lookup` read in the same way: there is a slash, and no second one
before the last component. -/
def ParsesAlike (rest : CStr) : Prop := slash ∈ rest ∧ (dirName rest).getLast? ≠ some slash

/-- **The tokens of a path and those of its directory.** -/
theorem pathTokens_cases {rest : CStr} (hne : baseName rest ≠ []) :
    (ParsesAlike rest ∧ pathTokens (skipSlash rest) =
        pathTokens (skipSlash (dirName rest)) ++ [baseName rest]) ∨
      (¬ParsesAlike rest ∧ pathTokens (skipSlash rest) =
        pathTokens (skipSlash (dirName rest)) ++ [[], baseName rest]) ∨
      (¬ParsesAlike rest ∧ pathTokens (skipSlash rest) = [baseName rest] ∧
        pathTokens (skipSlash (dirName rest)) = [baseName rest]) := by
  by_cases hmem : slash ∈ rest
  · obtain ⟨a, b, rfl, hb⟩ := eq_append_of_slash_mem hmem
    unfold ParsesAlike
    rw [baseName_append a hb] at hne ⊢
    rw [dirName_append a hb]
    have htokens := pathTokens_of_not_mem hb hne
    by_cases hlast : a.getLast? = some slash
    · -- the directory ends with a slash, so an empty token comes before the name
      refine .inr (.inl ⟨fun h => h.2 hlast, ?_⟩)
      obtain ⟨e, rfl⟩ := getLast?_eq_some_iff.mp hlast
      cases e with
      | nil => exact htokens ▸ pathTokens_append [] b
      | cons c e =>
        have hcons : (c :: e) ≠ [] := cons_ne_nil c e
        rw [append_assoc, singleton_append, skipSlash_append hcons,
          skipSlash_append hcons, pathTokens_append, pathTokens_append, pathTokens_nil,
          append_nil, ← nil_append (slash :: b), pathTokens_append, htokens]
        rfl
    · refine .inl ⟨⟨hmem, hlast⟩, ?_⟩
      cases a with
      | nil => exact htokens
      | cons c a =>
        rw [skipSlash_append (cons_ne_nil c a), pathTokens_append, htokens]
        have hsame : (skipSlash (c :: a)).splitOn slash = pathTokens (skipSlash (c :: a)) := by
          rw [pathTokens, if_neg]
          rw [getLast?_splitOn_iff, skipSlash]
          split
          · rename_i hhead
            obtain rfl : c = slash := some.inj hhead
            cases a with
            | nil => exact absurd rfl hlast
            | cons c' a =>
              rintro (h | h)
              · cases h
              · exact hlast (by rw [← h]; rfl)
          · rintro (h | h)
            · cases h
            · exact hlast h
        rw [hsame]
  · have hname := baseName_of_not_mem hmem
    rw [hname] at hne ⊢
    rw [dirName_of_not_mem hmem, skipSlash_of_not_mem hmem, pathTokens_of_not_mem hmem hne]
    exact .inr (.inr ⟨fun h => hmem h.1, rfl, rfl⟩)

/-! ## The tree with a new file -/

variable {d base : DentryId} {tokens : List CStr}

namespace Vfs

/-- The file system once `vfs_create` has made a file in the directory `dir` with inode `p`. -/
def created (v : Vfs) (name : CStr) (dir : DentryId) (p : InodeId) (mode : ℕ) : Vfs :=
  (v.linkDentry name dir p).withInode v.nextDentry mode

/-- What is known of a directory in which a file is made. -/
structure CanCreate (v : Vfs) (name : CStr) (dir : DentryId) (p : InodeId) (inode : Inode) :
    Prop where
  /-- there are directory trees -/
  tree : v.Tree
  /-- the directory has the inode -/
  dirInode : ((v.dentry dir).bind fun dentry => dentry.dInode) = some p
  /-- which is there -/
  inode_p : v.inode p = some inode
  /-- and can be searched -/
  op : inode.iOp.isSome
  /-- there is no child with the name -/
  absent : v.vfsGenericLookup name inode.iChildren = some none

variable {v : Vfs} {name : CStr} {dir : DentryId} {p : InodeId} {inode : Inode} {mode : ℕ}

theorem dentry_created : (v.created name dir p mode).dentry v.nextDentry =
    some { dName := name, dInode := some v.nextInode, dParent := some dir } := by
  simp [created, linkDentry, withInode, bumpIno, addInode, setDentryInode, modifyInode]

theorem dentry_created_of_ne {c : DentryId} (hc : c ≠ v.nextDentry) :
    (v.created name dir p mode).dentry c = v.dentry c := by
  simp [created, linkDentry, withInode, bumpIno, addInode, setDentryInode, modifyInode,
    Function.update_of_ne hc]

theorem inode_created_new : (v.created name dir p mode).inode v.nextInode =
    some (newInode v.vfsInoNext mode) := by
  simp [created, linkDentry, withInode, bumpIno, addInode, setDentryInode, modifyInode]

variable {i : InodeId}

theorem inode_created_of_ne (hi : i ≠ v.nextInode) (hp : i ≠ p) :
    (v.created name dir p mode).inode i = v.inode i :=
  ((v.linkDentry name dir p).inode_withInode_of_ne _ _ hi).trans
    (v.inode_linkDentry_of_ne name dir p hp)

variable {dentry : Dentry}

/-- A dentry of the new tree is the new one or an old one. -/
theorem dentry_created_cases (hd : (v.created name dir p mode).dentry d = some dentry) :
    (d = v.nextDentry ∧
        dentry = { dName := name, dInode := some v.nextInode, dParent := some dir }) ∨
      d ≠ v.nextDentry ∧ v.dentry d = some dentry := by
  by_cases hne : d = v.nextDentry
  · subst hne
    exact .inl ⟨rfl, (some.inj (dentry_created.symm.trans hd)).symm⟩
  · exact .inr ⟨hne, (dentry_created_of_ne hne).symm.trans hd⟩

variable {children : List DentryId}

/-- A walk over children that are as before. -/
theorem vfsGenericLookup_congr {v' : Vfs} (t : CStr)
    (h : ∀ c ∈ children, v'.dentry c = v.dentry c) :
    v'.vfsGenericLookup t children = v.vfsGenericLookup t children := by
  induction children with
  | nil => rfl
  | cons c children ih =>
    obtain ⟨hc, hrest⟩ := forall_mem_cons.mp h
    unfold vfsGenericLookup
    rw [hc, ih hrest]

theorem inodeOf_eq (hd : v.dentry d = some dentry) (hi : dentry.dInode = some i) :
    v.inodeOf d = v.inode i := by
  simp [inodeOf, hd, hi]

variable {ia : Inode}

theorem inodeOf_cases (h : v.inodeOf d = some ia) :
    ∃ dentry i, v.dentry d = some dentry ∧ dentry.dInode = some i ∧ v.inode i = some ia := by
  obtain ⟨dentry, hd, h⟩ := bind_eq_some_iff.mp h
  obtain ⟨i, hi, h⟩ := bind_eq_some_iff.mp h
  exact ⟨dentry, i, hd, hi, h⟩

namespace CanCreate

variable (h : v.CanCreate name dir p inode)

include h

theorem ne_of_dentry (hd : v.dentry d = some dentry) : d ≠ v.nextDentry := by
  rintro rfl
  cases (h.tree.freshDentry _ le_rfl).symm.trans hd

theorem ne_of_inode (hi : v.inode i = some ia) : i ≠ v.nextInode := by
  rintro rfl
  cases (h.tree.freshInode _ le_rfl).symm.trans hi

theorem dirDentry : ∃ dentry, v.dentry dir = some dentry ∧ dentry.dInode = some p :=
  bind_eq_some_iff.mp h.dirInode

theorem inodeOf_dir : v.inodeOf dir = some inode := by
  obtain ⟨dentry, hd, hp⟩ := h.dirDentry
  rw [inodeOf_eq hd hp, h.inode_p]

theorem inode_created_parent : (v.created name dir p mode).inode p =
    some { inode with iChildren := v.nextDentry :: inode.iChildren } :=
  ((v.linkDentry name dir p).inode_withInode_of_ne _ _ (h.ne_of_inode h.inode_p)).trans
    (v.inode_linkDentry name dir p h.inode_p)

/-- The inode of a dentry is as before, or it is the directory's and has a child more. -/
theorem inodeOf_created (mode : ℕ) {a : DentryId} (ha : v.inodeOf a = some ia) :
    (a ≠ dir ∧ (v.created name dir p mode).inodeOf a = some ia) ∨
      a = dir ∧ ia = inode ∧ (v.created name dir p mode).inodeOf a =
        some { inode with iChildren := v.nextDentry :: inode.iChildren } := by
  obtain ⟨dentry, i, hd, hi, hia⟩ := inodeOf_cases ha
  have hd' : (v.created name dir p mode).dentry a = some dentry :=
    (dentry_created_of_ne (h.ne_of_dentry hd)).trans hd
  rw [inodeOf_eq hd' hi]
  obtain ⟨dirDentry, hdir, hp⟩ := h.dirDentry
  by_cases hip : i = p
  · subst hip
    obtain rfl := h.tree.ownInode a dir dentry dirDentry i hd hdir hi hp
    exact .inr ⟨rfl, some.inj (hia.symm.trans h.inode_p), h.inode_created_parent⟩
  · refine .inl ⟨?_, (inode_created_of_ne (h.ne_of_inode hia) hip).trans hia⟩
    rintro rfl
    cases hd.symm.trans hdir
    exact hip (some.inj (hi.symm.trans hp))

/-- The children that were there are looked at as before. -/
theorem genericLookup_created (t : CStr) (hia : v.inode i = some ia) :
    (v.created name dir p mode).vfsGenericLookup t ia.iChildren =
      v.vfsGenericLookup t ia.iChildren := by
  refine vfsGenericLookup_congr t fun c hc => ?_
  obtain ⟨dentry, hd⟩ := h.tree.child i ia c hia hc
  exact dentry_created_of_ne (h.ne_of_dentry hd)

theorem genericLookup_dir (t : CStr) :
    (v.created name dir p mode).vfsGenericLookup t (v.nextDentry :: inode.iChildren) =
      if name = t then some (some v.nextDentry) else v.vfsGenericLookup t inode.iChildren := by
  rw [vfsGenericLookup, dentry_created, h.genericLookup_created t h.inode_p]

/-- **The new file is found in its directory.** -/
theorem childNamed_new : (v.created name dir p mode).childNamed dir name = some v.nextDentry := by
  rcases h.inodeOf_created mode h.inodeOf_dir with ⟨hne, _⟩ | ⟨_, _, hof⟩
  · exact absurd rfl hne
  · refine bind_eq_some_iff.mpr ⟨_, hof, ?_⟩
    rw [if_pos h.op, h.genericLookup_dir, if_pos rfl]
    rfl

/-- **What was found before is found.** -/
theorem childNamed_created {a c : DentryId} {t : CStr} (hc : v.childNamed a t = some c) :
    (v.created name dir p mode).childNamed a t = some c := by
  obtain ⟨ia, ha, hc⟩ := bind_eq_some_iff.mp hc
  split at hc
  · rename_i hop
    rcases h.inodeOf_created mode ha with ⟨_, hof⟩ | ⟨rfl, rfl, hof⟩
    · obtain ⟨dentry, i, _, _, hia⟩ := inodeOf_cases ha
      refine bind_eq_some_iff.mpr ⟨ia, hof, ?_⟩
      rw [if_pos hop, h.genericLookup_created t hia]
      exact hc
    · refine bind_eq_some_iff.mpr ⟨_, hof, ?_⟩
      have hne : name ≠ t := by
        rintro rfl
        rw [h.absent] at hc
        cases hc
      rw [if_pos hop, h.genericLookup_dir, if_neg hne]
      exact hc
  · cases hc

theorem walkTokens_created (hd : v.walkTokens base tokens = some d) :
    (v.created name dir p mode).walkTokens base tokens = some d := by
  induction tokens generalizing base with
  | nil => exact hd
  | cons t tokens ih =>
    obtain ⟨c, hc, hd⟩ := bind_eq_some_iff.mp hd
    exact bind_eq_some_iff.mpr ⟨c, h.childNamed_created hc, ih hd⟩

theorem lookup_created {path : CStr} (hd : v.lookup path = some d) :
    (v.created name dir p mode).lookup path = some d := by
  obtain ⟨base, hbase, hd⟩ := bind_eq_some_iff.mp hd
  exact bind_eq_some_iff.mpr ⟨base, hbase, h.walkTokens_created hd⟩

/-- An inode of the new tree is the new one, the directory's, or as before. -/
theorem inode_cases {mode : ℕ} (hi : (v.created name dir p mode).inode i = some ia) :
    (i = v.nextInode ∧ ia = newInode v.vfsInoNext mode) ∨
      (i = p ∧ ia = { inode with iChildren := v.nextDentry :: inode.iChildren }) ∨
      v.inode i = some ia := by
  by_cases hnew : i = v.nextInode
  · subst hnew
    exact .inl ⟨rfl, (some.inj (inode_created_new.symm.trans hi)).symm⟩
  by_cases hp : i = p
  · subst hp
    exact .inr (.inl ⟨rfl, (some.inj (h.inode_created_parent.symm.trans hi)).symm⟩)
  · exact .inr (.inr ((inode_created_of_ne hnew hp).symm.trans hi))

theorem dentry_kept {mode : ℕ} (hd : v.dentry d = some dentry) :
    (v.created name dir p mode).dentry d = some dentry :=
  (dentry_created_of_ne (h.ne_of_dentry hd)).trans hd

theorem inode_kept {mode : ℕ} (hi : v.inode i = some ia) :
    ∃ ia', (v.created name dir p mode).inode i = some ia' := by
  by_cases hp : i = p
  · subst hp
    exact ⟨_, h.inode_created_parent⟩
  · exact ⟨ia, (inode_created_of_ne (h.ne_of_inode hi) hp).trans hi⟩

/-- **With the new file there is still a tree.** -/
theorem tree_created (mode : ℕ) : (v.created name dir p mode).Tree where
  freshDentry d hd := by
    have hlt : v.nextDentry < d := hd
    exact (dentry_created_of_ne hlt.ne').trans (h.tree.freshDentry d hlt.le)
  freshInode i hi := by
    have hlt : v.nextInode < i := hi
    have hnone := h.tree.freshInode i hlt.le
    refine (inode_created_of_ne hlt.ne' ?_).trans hnone
    rintro rfl
    cases hnone.symm.trans h.inode_p
  hasInode d dentry hd := by
    rcases dentry_created_cases hd with ⟨_, rfl⟩ | ⟨_, hd⟩
    · exact ⟨_, _, rfl, inode_created_new⟩
    · obtain ⟨i, ia, hi, hia⟩ := h.tree.hasInode d dentry hd
      obtain ⟨ia', hia'⟩ := h.inode_kept hia
      exact ⟨i, ia', hi, hia'⟩
  ownInode a b dentry dentry' i ha hb hi hi' := by
    have hold : ∀ {c dentry}, v.dentry c = some dentry → dentry.dInode ≠ some v.nextInode := by
      intro c dentry hc hnew
      obtain ⟨j, ja, hj, hja⟩ := h.tree.hasInode c dentry hc
      exact h.ne_of_inode hja (some.inj (hj.symm.trans hnew))
    rcases dentry_created_cases ha with ⟨rfl, rfl⟩ | ⟨_, ha⟩
    · obtain rfl : v.nextInode = i := some.inj hi
      rcases dentry_created_cases hb with ⟨rfl, _⟩ | ⟨_, hb⟩
      · rfl
      · exact absurd hi' (hold hb)
    · rcases dentry_created_cases hb with ⟨rfl, rfl⟩ | ⟨_, hb⟩
      · obtain rfl : v.nextInode = i := some.inj hi'
        exact absurd hi (hold ha)
      · exact h.tree.ownInode a b dentry dentry' i ha hb hi hi'
  child i ia c hi hc := by
    rcases h.inode_cases hi with ⟨_, rfl⟩ | ⟨rfl, rfl⟩ | hi
    · cases hc
    · rcases mem_cons.mp hc with rfl | hc
      · exact ⟨_, dentry_created⟩
      · obtain ⟨dentry, hd⟩ := h.tree.child i inode c h.inode_p hc
        exact ⟨dentry, h.dentry_kept hd⟩
    · obtain ⟨dentry, hd⟩ := h.tree.child i ia c hi hc
      exact ⟨dentry, h.dentry_kept hd⟩
  parent d ia c dentry hd hc hdentry := by
    obtain ⟨ddentry, i, hddentry, hi, hia⟩ := inodeOf_cases hd
    rcases dentry_created_cases hddentry with ⟨_, rfl⟩ | ⟨_, hold⟩
    · obtain rfl : v.nextInode = i := some.inj hi
      obtain rfl := some.inj (inode_created_new.symm.trans hia)
      cases hc
    obtain ⟨j, ja, hj, hja⟩ := h.tree.hasInode d ddentry hold
    have hof : v.inodeOf d = some ja := (inodeOf_eq hold hj).trans hja
    rcases h.inodeOf_created mode hof with ⟨_, hof'⟩ | ⟨rfl, rfl, hof'⟩
    · obtain rfl := some.inj (hof'.symm.trans hd)
      obtain ⟨cdentry, hcd⟩ := h.tree.child j ja c hja hc
      obtain rfl := some.inj ((h.dentry_kept hcd).symm.trans hdentry)
      exact h.tree.parent d ja c cdentry hof hc hcd
    · obtain rfl := some.inj (hof'.symm.trans hd)
      rcases mem_cons.mp hc with rfl | hc
      · obtain rfl := some.inj (dentry_created.symm.trans hdentry)
        rfl
      · obtain ⟨cdentry, hcd⟩ := h.tree.child j ja c hja hc
        obtain rfl := some.inj ((h.dentry_kept hcd).symm.trans hdentry)
        exact h.tree.parent d ja c cdentry hof hc hcd
  notOwnParent d dentry hd := by
    rcases dentry_created_cases hd with ⟨rfl, rfl⟩ | ⟨_, hd⟩
    · obtain ⟨dirDentry, hdir, _⟩ := h.dirDentry
      exact fun heq => h.ne_of_dentry hdir (some.inj heq)
    · exact h.tree.notOwnParent d dentry hd
  mounted m hm := by
    obtain ⟨d, dentry, hroot, hd⟩ := h.tree.mounted m hm
    exact ⟨d, dentry, hroot, h.dentry_kept hd⟩
  root d hd := by
    obtain ⟨dentry, hdentry⟩ := h.tree.root d hd
    exact ⟨dentry, h.dentry_kept hdentry⟩

end CanCreate

/-! ## Unique names -/

/-- No directory has two children with the same name. -/
def UniqueNames (v : Vfs) : Prop :=
  ∀ i inode, v.inode i = some inode →
    (inode.iChildren.map fun c => (v.dentry c).map Dentry.dName).Nodup

/-- A name that is not found is not there. -/
theorem ne_of_vfsGenericLookup {t : CStr} (h : v.vfsGenericLookup t children = some none) :
    some t ∉ children.map fun c => (v.dentry c).map Dentry.dName := by
  induction children with
  | nil => exact not_mem_nil
  | cons c children ih =>
    unfold vfsGenericLookup at h
    split at h
    · cases h
    · rename_i dentry hd
      split at h
      · cases h
      · rename_i hne
        rw [map_cons, mem_cons, hd, not_or]
        exact ⟨fun heq => hne (some.inj heq).symm, ih h⟩

theorem CanCreate.uniqueNames (h : v.CanCreate name dir p inode) (mode : ℕ)
    (hunique : v.UniqueNames) : (v.created name dir p mode).UniqueNames := by
  have hnames : ∀ i ia, v.inode i = some ia →
      (ia.iChildren.map fun c => ((v.created name dir p mode).dentry c).map Dentry.dName) =
        ia.iChildren.map fun c => (v.dentry c).map Dentry.dName := by
    intro i ia hi
    refine map_congr_left fun c hc => ?_
    obtain ⟨dentry, hd⟩ := h.tree.child i ia c hi hc
    rw [h.dentry_kept hd, hd]
  intro i ia hi
  rcases h.inode_cases hi with ⟨_, rfl⟩ | ⟨rfl, rfl⟩ | hi
  · exact nodup_nil
  · rw [map_cons, dentry_created, map_some, hnames i inode h.inode_p]
    exact nodup_cons.mpr ⟨ne_of_vfsGenericLookup h.absent, hunique i inode h.inode_p⟩
  · rw [hnames i ia hi]
    exact hunique i ia hi

/-! ## Calls in a tree are defined -/

theorem isSome_vfsGenericLookup (t : CStr)
    (hlive : ∀ c ∈ children, ∃ dentry, v.dentry c = some dentry) :
    (v.vfsGenericLookup t children).isSome := by
  induction children with
  | nil => rfl
  | cons c children ih =>
    obtain ⟨⟨dentry, hd⟩, hrest⟩ := forall_mem_cons.mp hlive
    unfold vfsGenericLookup
    rw [hd]
    simp only
    split
    · rfl
    · exact ih hrest

theorem dentry_of_childNamed {a c : DentryId} {t : CStr} (h : v.childNamed a t = some c) :
    ∃ dentry, v.dentry c = some dentry := by
  obtain ⟨ia, _, h⟩ := bind_eq_some_iff.mp h
  split at h
  · obtain ⟨_, dentry, hd, _⟩ := vfsGenericLookup_some (join_eq_some_iff.mp h)
    exact ⟨dentry, hd⟩
  · cases h

end Vfs

theorem isSome_withBlock {α : Type} {pool : Pool} {n : ℕ} {body : VfsM α} {w : Work}
    (h : (body { w with held := n :: w.held }).isSome) : (withBlock pool n body w).isSome := by
  unfold withBlock
  split
  · rfl
  · rw [isSome_map]
    exact h

theorem isSome_kmalloc (pool : Pool) (n : ℕ) (w : Work) : (kmalloc pool n w).isSome := by
  unfold kmalloc
  split <;> rfl

namespace Vfs.Tree

/-- Mounts have roots, so lookup and creation follow the same path. -/
theorem lookupRest_eq {v : Vfs} (htree : v.Tree) (path : CStr) :
    v.lookupRest path = v.mountRest path := by
  unfold lookupRest mountRoot mountRest
  cases hm : v.findMount path with
  | none => rfl
  | some m =>
    obtain ⟨d, _, hsb, _⟩ := htree.mounted m (findMount_some hm).1
    rw [bind_some, hsb]
    rfl

variable {pool : Pool} {w : Work} (htree : w.vfs.Tree)

include htree

theorem isSome_component {dir : DentryId} (hlive : ∃ dentry, w.vfs.dentry dir = some dentry)
    (name : CStr) : (vfsLookupComponent pool dir name w).isSome := by
  obtain ⟨dentry, hd⟩ := hlive
  obtain ⟨i, inode, hi, hinode⟩ := htree.hasInode dir dentry hd
  have hof : w.vfs.inodeOf dir = some inode := (inodeOf_eq hd hi).trans hinode
  refine isSome_bind ?_ fun inode' w1 h1 => ?_
  · rw [deref, isSome_map, hof]
    rfl
  obtain ⟨_, hderef, hr, rfl⟩ := deref_cases h1
  cases hr
  cases hof.symm.trans hderef
  refine isSome_bind rfl fun _ w2 h2 => ?_
  obtain ⟨rfl, _⟩ := check_cases h2
  refine isSome_withBlock (isSome_withBlock ?_)
  rw [isSome_map]
  exact isSome_vfsGenericLookup name fun c hc => htree.child i inode c hinode hc

theorem isSome_foldlM (hlive : ∃ dentry, w.vfs.dentry base = some dentry) :
    (tokens.foldlM (vfsLookupComponent pool) base w).isSome := by
  induction tokens generalizing base with
  | nil => rfl
  | cons t tokens ih =>
    rw [foldlM_cons]
    refine isSome_bind (htree.isSome_component hlive t) fun c w1 hc => ?_
    obtain ⟨hchild, _, rfl⟩ := component_some_iff.mp hc
    exact ih (dentry_of_childNamed hchild)

theorem isSome_lookupFrom (hlive : ∃ dentry, w.vfs.dentry base = some dentry) (path : CStr) :
    (vfsLookupFrom pool base path w).isSome := by
  unfold vfsLookupFrom
  split
  · rfl
  · refine isSome_withBlock ?_
    exact @isSome_foldlM _ _ pool ⟨w.vfs, ((skipSlash path).length + 1) :: w.held⟩ htree hlive

/-- The directory for a new file is found or not. -/
theorem isSome_createDir (hlive : ∃ dentry, w.vfs.dentry base = some dentry) (rest : CStr) :
    (createDir pool base rest w).isSome := by
  unfold createDir
  split
  · rfl
  · exact htree.isSome_lookupFrom hlive _

omit htree in
theorem walk_of_createDir {dir : DentryId} {rest : CStr} {w' : Work}
    (h : createDir pool base rest w = some (some dir, w')) :
    w.vfs.walkTokens base (pathTokens (skipSlash (dirName rest))) = some dir := by
  unfold createDir at h
  split at h
  · rename_i hempty
    rw [hempty]
    exact (Prod.mk.inj (some.inj h)).1
  · exact (lookupFrom_some_iff.mp h).1

omit htree in
theorem dentry_of_walk {v : Vfs} (hlive : ∃ dentry, v.dentry base = some dentry)
    (h : v.walkTokens base tokens = some d) : ∃ dentry, v.dentry d = some dentry := by
  induction tokens generalizing base with
  | nil =>
    cases h
    exact hlive
  | cons t tokens ih =>
    obtain ⟨c, hc, h⟩ := bind_eq_some_iff.mp h
    exact ih (dentry_of_childNamed hc) h

theorem isSome_createParent (hlive : ∃ dentry, w.vfs.dentry base = some dentry) (rest : CStr) :
    (createParent pool base rest w).isSome := by
  refine isSome_bind rfl fun _ w1 h1 => ?_
  obtain ⟨rfl, _⟩ := check_cases h1
  refine isSome_bind (htree.isSome_createDir hlive rest) fun dir w2 h2 => ?_
  obtain rfl := readOnly_createDir base rest h2
  have hdir := dentry_of_walk hlive (walk_of_createDir h2)
  refine isSome_bind ?_ fun _ w3 _ => rfl
  rw [absent, isSome_map]
  exact htree.isSome_component hdir _

theorem isSome_vfsNewDentry {dir : DentryId} (hlive : ∃ dentry, w.vfs.dentry dir = some dentry)
    (name : CStr) : (vfsNewDentry pool name dir w).isSome := by
  obtain ⟨dentry, hd⟩ := hlive
  obtain ⟨i, inode, hi, hinode⟩ := htree.hasInode dir dentry hd
  refine isSome_bind (isSome_kmalloc ..) fun _ w1 h1 => isSome_bind ?_ fun _ w2 h2 => ?_
  · rw [onNull, isSome_map]
    exact isSome_kmalloc ..
  have hvfs : w2.vfs = w.vfs := by
    rcases onNull_cases h2 with ⟨_, _, hr, _⟩ | ⟨_, h2, _⟩
    · cases hr
    · exact (vfs_kmalloc h2).trans (vfs_kmalloc h1)
  refine isSome_bind ?_ fun _ _ _ => rfl
  rw [deref, isSome_map, hvfs, hd, bind_some, hi]
  rfl

theorem dentry_of_base (path : CStr) {vfsRoot : DentryId} (hroot : w.vfs.vfsRoot = some vfsRoot) :
    ∃ dentry, w.vfs.dentry ((w.vfs.mountRoot path).getD vfsRoot) = some dentry := by
  unfold mountRoot
  cases hm : w.vfs.findMount path with
  | none => exact htree.root vfsRoot hroot
  | some m =>
    obtain ⟨d, dentry, hsb, hd⟩ := htree.mounted m (findMount_some hm).1
    rw [bind_some, hsb]
    exact ⟨dentry, hd⟩

end Vfs.Tree

/-! ## Agreement -/

/-- **Creation and lookup agree on a path**: `d` has been made with it, in the file system `v`
that has become `v'`. -/
structure NamesAgree (v v' : Vfs) (path : CStr) (d : DentryId) : Prop where
  /-- the path is looked up as the new file -/
  found : ∀ pool held, pool.Ample →
    vfsLookup pool [] path ⟨v', held⟩ = some (some d, ⟨v', held⟩)
  /-- a lookup that succeeded before has the same result -/
  kept : ∀ pool held q c, vfsLookup pool [] q ⟨v, held⟩ = some (some c, ⟨v, held⟩) →
    vfsLookup pool [] q ⟨v', held⟩ = some (some c, ⟨v', held⟩)
  /-- the file is not created a second time -/
  once : ∀ pool held mode, ∃ w, vfsCreate pool path mode ⟨v', held⟩ = some (none, w)
  /-- names stay unique -/
  unique : v.UniqueNames → v'.UniqueNames

section Agree

variable {pool : Pool} {path : CStr} {mode : ℕ} {w w' : Work}

/-- What a successful `vfs_create` has done. -/
theorem vfsCreate_some {f : File} (htree : w.vfs.Tree)
    (h : vfsCreate pool path mode w = some (some f, w')) :
    ∃ dir p inode base, w.vfs.CanCreate (baseName (w.vfs.mountRest path)) dir p inode ∧
      MakesDentry pool path w dir ∧ w.vfs.lookupBase path = some base ∧
      w.vfs.walkTokens base (pathTokens (skipSlash (dirName (w.vfs.mountRest path)))) = some dir ∧
      f.fDentry = w.vfs.nextDentry ∧
      w'.vfs = w.vfs.created (baseName (w.vfs.mountRest path)) dir p mode := by
  rcases vfsCreate_cases h with ⟨_, hr, _⟩ | ⟨dir, p, hmakes, hp, hend, hop⟩
  · cases hr
  obtain ⟨inode, hinode, hof⟩ := hmakes.inode hp
  obtain ⟨vfsRoot, hroot, hparent⟩ := hmakes.parent
  obtain ⟨_, hdir, hnull⟩ := createParent_some hparent
  obtain ⟨inode', hof', hop⟩ := hop rfl
  have hlinked : (w.vfs.linkDentry (baseName (w.vfs.mountRest path)) dir p).inode p =
      some { inode with iChildren := w.vfs.nextDentry :: inode.iChildren } :=
    inode_linkDentry _ _ _ _ hinode
  obtain ⟨dentry, hd, hdp⟩ := bind_eq_some_iff.mp hp
  have hdir' : dir ≠ w.vfs.nextDentry := by
    rintro rfl
    cases (htree.freshDentry _ le_rfl).symm.trans hd
  have hd' : (w.vfs.linkDentry (baseName (w.vfs.mountRest path)) dir p).dentry dir = some dentry :=
    (Function.update_of_ne hdir' _ _).trans hd
  have hmemfs : inode.iOp = some .memfs := by
    rw [inodeOf_eq hd' hdp, hlinked] at hof'
    cases hof'
    exact hop
  -- there was memory for the comparison, so the name is really absent
  have habsent : w.vfs.vfsGenericLookup (baseName (w.vfs.mountRest path)) inode.iChildren =
      some none := by
    have hsome := isSome_vfsGenericLookup (baseName (w.vfs.mountRest path))
      fun c hc => htree.child p inode c hinode hc
    obtain ⟨r, hr⟩ := isSome_iff_exists.mp hsome
    cases r with
    | none => exact hr
    | some c =>
      have hchild : w.vfs.childNamed dir (baseName (w.vfs.mountRest path)) = some c := by
        refine bind_eq_some_iff.mpr ⟨inode, hof, ?_⟩
        rw [if_pos (by rw [hmemfs]; rfl), hr]
        rfl
      have hfound := (component_some_iff (w := createWork path w)).mpr
        ⟨hchild, hmakes.memory, rfl⟩
      cases hnull.symm.trans hfound
  have hcan : w.vfs.CanCreate (baseName (w.vfs.mountRest path)) dir p inode :=
    ⟨htree, hp, hinode, by rw [hmemfs]; rfl, habsent⟩
  have hwalk := Vfs.Tree.walk_of_createDir hdir
  refine ⟨dir, p, inode, (w.vfs.mountRoot path).getD vfsRoot, hcan, hmakes, ?_, hwalk, ?_⟩
  · rw [lookupBase, hroot, map_some]
  · generalize w'.vfs = v' at hend
    cases hend with
    | opened hf => exact ⟨hf, rfl⟩

/-- In a tree a call that makes no dentry returns `NULL`. -/
theorem vfsCreate_null (htree : w.vfs.Tree) (hno : ∀ dir, ¬MakesDentry pool path w dir) :
    ∃ w', vfsCreate pool path mode w = some (none, w') := by
  have hsome : (vfsCreate pool path mode w).isSome := by
    refine isSome_bind rfl fun _ w1 h1 => ?_
    obtain ⟨rfl, hpath⟩ := check_cases h1
    rcases hpath with ⟨hr, _⟩ | ⟨_, hpath⟩
    · cases hr
    rw [CallM.get_bind]
    cases hroot : w1.vfs.vfsRoot with
    | none => rfl
    | some vfsRoot =>
      have hbase := htree.dentry_of_base path hroot
      rw [ofOption_some_bind]
      refine isSome_bind (isSome_withBlock ?_) fun made w2 hmade => ?_
      · refine isSome_bind (Vfs.Tree.isSome_createParent (w := createWork path w1) htree hbase _)
          fun dir w2 hdir => ?_
        obtain rfl := readOnly_createParent _ _ hdir
        obtain ⟨_, hfound, _⟩ := createParent_some hdir
        have hwalk := Vfs.Tree.walk_of_createDir hfound
        have hlive := Vfs.Tree.dentry_of_walk hbase hwalk
        exact isSome_bind (Vfs.Tree.isSome_vfsNewDentry (w := createWork path w1) htree hlive _)
          fun _ _ _ => rfl
      · rcases makeDentry_cases hpath hroot hmade with ⟨_, hr, _⟩ | ⟨dir, _, hmakes, _⟩
        · cases hr
        · exact absurd hmakes (hno dir)
  obtain ⟨⟨r, w'⟩, hr⟩ := isSome_iff_exists.mp hsome
  rcases vfsCreate_cases hr with ⟨_, rfl, _⟩ | ⟨dir, _, hmakes, _⟩
  · exact ⟨w', hr⟩
  · exact absurd hmakes (hno dir)

/-- The name is there, so no second dentry is made for it. -/
theorem not_makesDentry_created {v : Vfs} {dir : DentryId} {p : InodeId} {inode : Inode}
    (hcan : v.CanCreate (baseName (v.mountRest path)) dir p inode)
    (hbase : v.lookupBase path = some base)
    (hwalk : v.walkTokens base (pathTokens (skipSlash (dirName (v.mountRest path)))) = some dir)
    (held : List ℕ) (dir' : DentryId) :
    ¬MakesDentry pool path ⟨v.created (baseName (v.mountRest path)) dir p mode, held⟩ dir' := by
  intro hmakes
  obtain ⟨vfsRoot, hroot, hparent⟩ := hmakes.parent
  obtain ⟨_, hdir, hnull⟩ := createParent_some hparent
  have hwalk' := Vfs.Tree.walk_of_createDir hdir
  have hbase' : v.lookupBase path = some ((v.mountRoot path).getD vfsRoot) := by
    have hroot : v.vfsRoot = some vfsRoot := hroot
    rw [lookupBase, hroot, map_some]
  cases hbase.symm.trans hbase'
  obtain rfl : dir = dir' := some.inj ((hcan.walkTokens_created hwalk).symm.trans hwalk')
  have hfound := component_some_iff.mpr ⟨hcan.childNamed_new, hmakes.memory, rfl⟩
  cases hnull.symm.trans hfound

/-- The new file is in no directory but its own. -/
theorem inode_of_isChild_new {v : Vfs} {name : CStr} {dir e : DentryId} {p : InodeId}
    {inode : Inode} (hcan : v.CanCreate name dir p inode)
    (hchild : (v.created name dir p mode).IsChild e v.nextDentry) : e = dir := by
  obtain ⟨ia, hof, hmem⟩ := hchild
  have hparent := (hcan.tree_created mode).parent e ia v.nextDentry _ hof hmem
    dentry_created
  exact (some.inj hparent).symm

/-- **The new file is what its path is looked up as, exactly when the path is read alike.** -/
theorem lookup_created_iff (mode : ℕ) {v : Vfs} {dir : DentryId} {p : InodeId} {inode : Inode}
    (hcan : v.CanCreate (baseName (v.mountRest path)) dir p inode)
    (hname : baseName (v.mountRest path) ≠ []) (hbase : v.lookupBase path = some base)
    (hwalk : v.walkTokens base (pathTokens (skipSlash (dirName (v.mountRest path)))) = some dir) :
    (v.created (baseName (v.mountRest path)) dir p mode).lookup path = some v.nextDentry ↔
      ParsesAlike (v.mountRest path) := by
  have hdir : (v.created (baseName (v.mountRest path)) dir p mode).walkTokens base
      (pathTokens (skipSlash (dirName (v.mountRest path)))) = some dir :=
    hcan.walkTokens_created hwalk
  have htree := hcan.tree_created mode
  obtain ⟨dirDentry, hdirDentry, _⟩ := hcan.dirDentry
  have hlookup : (v.created (baseName (v.mountRest path)) dir p mode).lookup path =
      (v.created (baseName (v.mountRest path)) dir p mode).walkTokens base
        (pathTokens (skipSlash (v.mountRest path))) := by
    have hbase' : (v.created (baseName (v.mountRest path)) dir p mode).lookupBase path =
        some base := hbase
    rw [Vfs.lookup, hbase', htree.lookupRest_eq]
    rfl
  rw [hlookup]
  rcases pathTokens_cases hname with ⟨halike, htokens⟩ | ⟨hnot, htokens⟩ | ⟨hnot, htokens, hsame⟩
  · refine iff_of_true ?_ halike
    rw [htokens]
    refine Vfs.walkTokens_append.mpr ⟨dir, hdir, ?_⟩
    exact bind_eq_some_iff.mpr ⟨_, hcan.childNamed_new, rfl⟩
  · refine iff_of_false (fun hfound => ?_) hnot
    rw [htokens] at hfound
    obtain ⟨dir', hdir', hfound⟩ := Vfs.walkTokens_append.mp hfound
    cases hdir.symm.trans hdir'
    obtain ⟨e, he, hfound⟩ := bind_eq_some_iff.mp hfound
    obtain ⟨d, hd, hfound⟩ := bind_eq_some_iff.mp hfound
    cases hfound
    -- the child with the empty name would be the directory itself
    obtain rfl := inode_of_isChild_new hcan (Vfs.isChild_of_childNamed hd)
    obtain ⟨ia, hof, hmem⟩ := Vfs.isChild_of_childNamed he
    have hlive : (v.created (baseName (v.mountRest path)) e p mode).dentry e = some dirDentry :=
      hcan.dentry_kept hdirDentry
    exact htree.notOwnParent e dirDentry hlive (htree.parent e ia e dirDentry hof hmem hlive)
  · refine iff_of_false (fun hfound => ?_) hnot
    rw [htokens, ← hsame] at hfound
    exact hcan.ne_of_dentry hdirDentry (some.inj (hdir.symm.trans hfound))

/-- **When creation and lookup agree.** A file that `vfs_create` has made is found by its path,
what was found before is found, and it is not made again, exactly when the path is read alike. -/
theorem create_agrees_iff {f : File} (htree : w.vfs.Tree)
    (h : vfsCreate pool path mode w = some (some f, w')) :
    NamesAgree w.vfs w'.vfs path f.fDentry ↔ ParsesAlike (w.vfs.mountRest path) := by
  obtain ⟨dir, p, inode, base, hcan, hmakes, hbase, hwalk, hf, hvfs⟩ := vfsCreate_some htree h
  obtain ⟨_, _, hparent⟩ := hmakes.parent
  have hname := (createParent_some hparent).1
  have hlookup := lookup_created_iff mode hcan hname hbase hwalk
  rw [hf, hvfs]
  constructor
  · intro hagree
    obtain ⟨_, _, hfound, _⟩ := vfsLookup_some_iff.mp (hagree.found Pool.ample [] Pool.ample_ample)
    exact hlookup.mp hfound
  · intro halike
    refine ⟨fun pool' held hample => ?_, fun pool' held q c hq => ?_, fun pool' held mode' => ?_,
      hcan.uniqueNames mode⟩
    · refine vfsLookup_some_iff.mpr ⟨hmakes.path_ne, rfl, hlookup.mpr halike, ?_, rfl⟩
      refine hample.hasPath _ ?_
      rw [(hcan.tree_created mode).lookupRest_eq]
      exact Pool.lt_of_give hmakes.copy
    · obtain ⟨hq, hallow, hc, hmemory, _⟩ := vfsLookup_some_iff.mp hq
      exact vfsLookup_some_iff.mpr ⟨hq, hallow, hcan.lookup_created hc, hmemory, rfl⟩
    · exact vfsCreate_null (hcan.tree_created mode)
        (not_makesDentry_created hcan hbase hwalk held)

end Agree

/-- A file in `/home` is found by its path. -/
theorem create_agrees_notes :
    ∃ f w', vfsCreate Pool.ample (cstr "/home/notes") sIfreg bootVfs.enter = some (some f, w') ∧
      NamesAgree bootVfs w'.vfs (cstr "/home/notes") f.fDentry := by
  obtain ⟨⟨_, w'⟩, hcreate, f, rfl, -⟩ :
      ∃ r ∈ vfsCreate Pool.ample (cstr "/home/notes") sIfreg bootVfs.enter, ∃ f ∈ r.1, True := by
    decide +kernel
  have halike : ParsesAlike (bootVfs.mountRest (cstr "/home/notes")) := by
    unfold ParsesAlike
    decide +kernel
  exact ⟨f, w', hcreate, (create_agrees_iff tree_bootVfs hcreate).mpr halike⟩

/-- **`/home//notes` is created and cannot be looked up**: the file is in `/home`, and the lookup
looks there for a directory with an empty name. -/
theorem create_unfindable :
    ∃ f w', vfsCreate Pool.ample (cstr "/home//notes") sIfreg bootVfs.enter = some (some f, w') ∧
      vfsLookup Pool.ample [] (cstr "/home//notes") ⟨w'.vfs, []⟩ = some (none, ⟨w'.vfs, []⟩) ∧
      ¬NamesAgree bootVfs w'.vfs (cstr "/home//notes") f.fDentry := by
  obtain ⟨⟨_, w'⟩, hcreate, f, rfl, ⟨_, w2⟩, hlookup, rfl⟩ :
      ∃ r ∈ vfsCreate Pool.ample (cstr "/home//notes") sIfreg bootVfs.enter, ∃ f ∈ r.1,
        ∃ r' ∈ vfsLookup Pool.ample [] (cstr "/home//notes") ⟨r.2.vfs, []⟩, r'.1 = none := by
    decide +kernel
  obtain rfl := readOnly_vfsLookup _ _ hlookup
  refine ⟨f, w', hcreate, hlookup, fun hagree => ?_⟩
  cases hlookup.symm.trans (hagree.found Pool.ample [] Pool.ample_ample)

end PokuOS
