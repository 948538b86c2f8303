import PokuOS.Task

/-!
# Paths

The path functions of `kernel/process.c` and `kernel/elf.c`. A C string is the list of its
bytes; a comparison that stops at the terminating NUL is one that stops at the end of the list.
-/

namespace PokuOS

open List

/-- A string literal. -/
def cstr (s : String) : CStr := s.toList.map fun c => UInt8.ofNat c.toNat

/-- `'/'`. -/
def slash : UInt8 := 0x2F

/-- `path_is_within`: `child` is `parent`, or goes on with a slash after it. -/
def pathIsWithin (child parent : CStr) : Bool :=
  parent.isPrefixOf child &&
    match child.drop parent.length with
    | [] => true
    | c :: _ => c == slash

/-- `resolve_path` for a task with this `root_path` and a buffer of this size. -/
def resolvePath (root path : CStr) (buflen : ℕ) : CStr :=
  if root = [] ∨ root = [slash] then path
  -- no room for the root: the path is taken as it is
  else if buflen < root.length + path.length + 2 then path
  else if root.getLast? = some slash then root ++ path
  else root ++ slash :: path

/-- The loop of `elf_assign_tier`: what follows the last slash. -/
def baseNameFrom (name : CStr) : CStr → CStr
  | [] => name
  | c :: p => baseNameFrom (if c = slash then p else name) p

/-- The last component of a path. -/
def baseName (path : CStr) : CStr := baseNameFrom path path

/-- `elf_assign_tier`. -/
def elfAssignTier (path : CStr) : Tier :=
  if baseName path = cstr "shell" ∨ baseName path = cstr "init" ∨
      baseName path = cstr "shell.elf" then .system
  else .user

example : elfAssignTier (cstr "/mnt/shell.elf") = .system := by decide +kernel

/-! ## The last component -/

variable {path : CStr}

theorem baseNameFrom_of_not_mem (name : CStr) (h : slash ∉ path) :
    baseNameFrom name path = name := by
  induction path with
  | nil => rfl
  | cons c path ih =>
    obtain ⟨hc, hpath⟩ := not_or.mp (mt mem_cons.mpr h)
    rw [baseNameFrom, if_neg (Ne.symm hc)]
    exact ih hpath

variable {b : CStr}

theorem baseNameFrom_append (name a : CStr) (h : slash ∉ b) :
    baseNameFrom name (a ++ slash :: b) = b := by
  induction a generalizing name with
  | nil =>
    rw [nil_append, baseNameFrom, if_pos rfl]
    exact baseNameFrom_of_not_mem b h
  | cons c a ih => exact ih _

theorem baseName_of_not_mem (h : slash ∉ path) : baseName path = path :=
  baseNameFrom_of_not_mem path h

/-- The last component is what follows the last slash. -/
theorem baseName_append (a : CStr) (h : slash ∉ b) : baseName (a ++ slash :: b) = b :=
  baseNameFrom_append _ a h

/-- A path with a slash has a last one. -/
theorem eq_append_of_slash_mem (h : slash ∈ path) : ∃ a b, path = a ++ slash :: b ∧ slash ∉ b := by
  obtain ⟨b, a, hrev, hb⟩ := eq_append_cons_of_mem (mem_reverse.mpr h)
  refine ⟨a.reverse, b.reverse, ?_, fun hmem => hb (mem_reverse.mp hmem)⟩
  rw [← reverse_reverse path, hrev]
  simp

/-! ## Being within a path -/

theorem pathIsWithin_iff {child parent : CStr} :
    pathIsWithin child parent ↔
      child = parent ∨ ∃ rest, child = parent ++ slash :: rest := by
  unfold pathIsWithin
  rw [Bool.and_eq_true, isPrefixOf_iff_prefix]
  constructor
  · rintro ⟨⟨rest, rfl⟩, hrest⟩
    rw [drop_left] at hrest
    cases rest with
    | nil => exact .inl (append_nil _)
    | cons c rest =>
      obtain rfl : c = slash := by simpa using hrest
      exact .inr ⟨rest, rfl⟩
  · rintro (rfl | ⟨rest, rfl⟩)
    · exact ⟨prefix_refl _, by simp⟩
    · exact ⟨prefix_append _ _, by simp⟩

theorem pathIsWithin_refl (path : CStr) : pathIsWithin path path :=
  pathIsWithin_iff.mpr (.inl rfl)

/-- **Being within a path is transitive.** -/
theorem pathIsWithin_trans {a c : CStr} (hab : pathIsWithin a b) (hbc : pathIsWithin b c) :
    pathIsWithin a c := by
  rcases pathIsWithin_iff.mp hbc with rfl | ⟨rest, rfl⟩
  · exact hab
  rcases pathIsWithin_iff.mp hab with rfl | ⟨rest', rfl⟩
  · exact hbc
  · refine pathIsWithin_iff.mpr (.inr ⟨rest ++ slash :: rest', ?_⟩)
    rw [append_assoc, cons_append]

/-- Of two paths another is within, the longer is within the shorter. -/
theorem pathIsWithin_of_length_le {p a : CStr} (ha : pathIsWithin p a) (hb : pathIsWithin p b)
    (h : a.length ≤ b.length) : pathIsWithin b a := by
  rcases pathIsWithin_iff.mp hb with rfl | ⟨rest, hrest⟩
  · exact ha
  rcases pathIsWithin_iff.mp ha with rfl | ⟨rest', hrest'⟩
  · rw [hrest, length_append, length_cons] at h
    omega
  have hprefix : a <+: b := prefix_of_prefix_length_le ⟨_, hrest'.symm⟩ ⟨_, hrest.symm⟩ h
  obtain ⟨t, rfl⟩ := hprefix
  cases t with
  | nil => exact pathIsWithin_iff.mpr (.inl (append_nil _))
  | cons c t =>
    rw [hrest, append_assoc] at hrest'
    obtain ⟨rfl, _⟩ := cons.inj (append_cancel_left hrest')
    exact pathIsWithin_iff.mpr (.inr ⟨t, rfl⟩)

/-- What is within a path that is not empty is not empty. -/
theorem ne_nil_of_pathIsWithin {a : CStr} (h : pathIsWithin a b) (hb : b ≠ []) : a ≠ [] := by
  rcases pathIsWithin_iff.mp h with rfl | ⟨rest, rfl⟩
  · exact hb
  · simp

end PokuOS
