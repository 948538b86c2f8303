import PokuOS.KernelHalf
import PokuOS.Ledger
import PokuOS.PageCache

/-!
# Who has a frame

Every frame that is not free is used for one thing: as a directory, as a table, as a page of a
task, of the heap or of the page cache. `Owned` is the ledger of the frames, and says of the page
tables that every frame they name is used for what they use it for. Since a frame has one owner,
no frame is used twice.

* `Owned` — the ledger, the page tables of the directories in use, the heap and the page cache.
* `Owned.mapUser`, `Owned.mapKernel` — **`map_page` keeps the ledger**, also when it finds no frame
  for a table; in the kernel's part it leaves the user part alone (`Owned.SameUser`).
-/

namespace PokuOS

open Function

/-! ## Owners -/

/-- What a frame is used for. -/
inductive Owner where
  /-- a page directory -/
  | dir
  /-- the table of a directory for an entry of the user part -/
  | userTable (d : ℕ) (i : Fin 1024)
  /-- a table of the kernel's part, for this entry -/
  | kernelTable (i : Fin 1024)
  /-- a user page: this word of this table -/
  | userPage (table : ℕ) (j : Fin 1024)
  /-- a page of the heap, by its number -/
  | heapPage (n : ℕ)
  /-- a page of the page cache, by its slot -/
  | cachePage (slot : ℕ)

/-- The frames that are handed out. -/
def frames : Set ℕ := {f | pageStartIndex ≤ f ∧ f < numPages}

/-- `HEAP_VIRT_START`, as the number of a page. -/
def heapStartPage : ℕ := 0xD0000

/-- Directory entries of the heap; at `0xE0000000` the pages for copying begin. -/
def HeapIdx (i : Fin 1024) : Prop := 832 ≤ i.val ∧ i.val < 896

/-- Who has frames. -/
structure Holders where
  /-- the directories in use -/
  dirs : Set ℕ
  /-- the frames that have been allocated, and are not used yet -/
  taken : Set ℕ
  /-- `cache` of `page_cache.c` -/
  slots : List (Option CacheSlot)
  /-- the heap ends before this page -/
  heapTop : ℕ
  /-- where directories may have user pages -/
  room : ℕ → Set (Fin 1024 × Fin 1024)
  /-- frames are counted once -/
  once : Prop

/-- No frame has been counted more than once. -/
def Vm.Counted (vm : Vm) : Prop := ∀ f, vm.refCount f ≤ 1

/-- A table of the kernel's image: user mode has no access to what it maps. -/
def StaticTable (dirs : Set ℕ) (entry : ℕ → Fin 1024 → Option Pte) (f : ℕ) : Prop :=
  f < pageStartIndex ∧ f ∉ dirs ∧ ∀ j, ∀ p ∈ entry f j, p.user = false

/-- The page tables use frames for what they are there for. -/
structure Mapped (owner : ℕ → Option Owner) (dirs : Set ℕ)
    (room : ℕ → Set (Fin 1024 × Fin 1024)) (entry : ℕ → Fin 1024 → Option Pte) : Prop where
  /-- a directory in use is one, or the kernel's -/
  dir : ∀ d ∈ dirs, owner d = some .dir ∨ d < pageStartIndex
  /-- the words of directories are writable -/
  word : ∀ d ∈ dirs, ∀ i, ∀ e ∈ entry d i, e.rw = true
  /-- the last word of a directory is the directory itself -/
  self : ∀ d ∈ dirs, ∀ e ∈ entry d 1023, e.frame = d
  /-- tables of the user part -/
  table : ∀ d ∈ dirs, ∀ i, UserIdx i → ∀ e ∈ entry d i, owner e.frame = some (.userTable d i)
  /-- pages of the user part -/
  page : ∀ d ∈ dirs, ∀ i, UserIdx i → ∀ e ∈ entry d i, ∀ j, ∀ p ∈ entry e.frame j,
    owner p.frame = some (.userPage e.frame j) ∧ (i, j) ∈ room d
  /-- tables of the kernel; those of the first 64 MiB are part of its image -/
  kernel : ∀ d ∈ dirs, ∀ i, KernelIdx i → ∀ e ∈ entry d i,
    owner e.frame = some (.kernelTable i) ∨ i.val < 784 ∧ StaticTable dirs entry e.frame
  /-- pages of the heap, and others that the kernel maps -/
  heap : ∀ f i, owner f = some (.kernelTable i) → ∀ j, ∀ p ∈ entry f j,
    p.user = false ∧ (HeapIdx i → owner p.frame = some (.heapPage (i.val * 1024 + j.val)))

/-- **The ledger of the frames.** -/
structure Owned (owner : ℕ → Option Owner) (h : Holders) (vm : Vm) : Prop
    extends Ledger frames owner h.taken vm.freeq, Mapped owner h.dirs h.room vm.entry where
  /-- every page of the heap has had a frame -/
  heapTo : ∀ n, heapStartPage ≤ n → n < h.heapTop → ∃ f, owner f = some (.heapPage n)
  /-- the page cache -/
  cache : ∀ i s, h.slots[i]? = some (some s) → owner s.phys = some (.cachePage i)
  /-- `ref_count` -/
  counts : h.once → vm.Counted

/-! ## Page tables -/

variable {words : Fin 1024 → Option Pte}

namespace Mapped

variable {owner owner' : ℕ → Option Owner} {dirs : Set ℕ}
  {room : ℕ → Set (Fin 1024 × Fin 1024)} {entry : ℕ → Fin 1024 → Option Pte}

/-- Frames get owners; a new kernel table is empty. -/
theorem grow (h : Mapped owner dirs room entry)
    (hkeep : ∀ f r, owner f = some r → owner' f = some r)
    (hnew : ∀ f i, owner' f = some (.kernelTable i) →
      owner f = some (.kernelTable i) ∨ ∀ j, entry f j = none) : Mapped owner' dirs room entry := by
  refine ⟨fun d hd => (h.dir d hd).imp_left (hkeep d _), h.word, h.self,
    fun d hd i hi e he => hkeep _ _ (h.table d hd i hi e he),
    fun d hd i hi e he j p hp => (h.page d hd i hi e he j p hp).imp_left (hkeep _ _),
    fun d hd i hi e he => (h.kernel d hd i hi e he).imp_left (hkeep _ _), ?_⟩
  intro f i hf j p hp
  rcases hnew f i hf with hold | hempty
  · obtain ⟨huser, howner⟩ := h.heap f i hold j p hp
    exact ⟨huser, fun hi => hkeep _ _ (howner hi)⟩
  · cases (hempty j).symm.trans hp

theorem mono (h : Mapped owner dirs room entry) {dirs' : Set ℕ} (hsub : dirs' ⊆ dirs) :
    Mapped owner dirs' room entry := by
  refine ⟨fun d hd => h.dir d (hsub hd), fun d hd => h.word d (hsub hd),
    fun d hd => h.self d (hsub hd), fun d hd => h.table d (hsub hd),
    fun d hd => h.page d (hsub hd), fun d hd i hi e he => ?_, h.heap⟩
  refine (h.kernel d (hsub hd) i hi e he).imp_right ?_
  rintro ⟨hlow, hstatic, hnot, huser⟩
  exact ⟨hlow, hstatic, fun hd' => hnot (hsub hd'), huser⟩

/-- What may be written to a frame: it depends on what the frame is. -/
structure Allows (owner : ℕ → Option Owner) (dirs : Set ℕ)
    (room : ℕ → Set (Fin 1024 × Fin 1024)) (entry : ℕ → Fin 1024 → Option Pte) (f : ℕ)
    (words : Fin 1024 → Option Pte) : Prop where
  /-- the kernel's image is not written to, but for its directory -/
  high : f ∈ dirs ∨ pageStartIndex ≤ f
  /-- a directory -/
  word : f ∈ dirs → ∀ i, ∀ e ∈ words i, e.rw = true
  /-- its last word -/
  self : f ∈ dirs → ∀ e ∈ words 1023, e.frame = f
  /-- its user part -/
  table : f ∈ dirs → ∀ i, UserIdx i → ∀ e ∈ words i, owner e.frame = some (.userTable f i) ∧
    ∀ j, ∀ p ∈ Function.update entry f words e.frame j,
      owner p.frame = some (.userPage e.frame j) ∧ (i, j) ∈ room f
  /-- its kernel part -/
  kernel : f ∈ dirs → ∀ i, KernelIdx i → ∀ e ∈ words i,
    owner e.frame = some (.kernelTable i) ∨ i.val < 784 ∧ StaticTable dirs entry e.frame
  /-- a table of the user part -/
  page : ∀ d i, owner f = some (.userTable d i) → ∀ j, ∀ p ∈ words j,
    owner p.frame = some (.userPage f j) ∧ (i, j) ∈ room d
  /-- a table of the kernel -/
  heap : ∀ i, owner f = some (.kernelTable i) → ∀ j, ∀ p ∈ words j,
    p.user = false ∧ (HeapIdx i → owner p.frame = some (.heapPage (i.val * 1024 + j.val)))

/-- **A frame of words is written.** -/
theorem write (h : Mapped owner dirs room entry) {f : ℕ}
    (hw : Allows owner dirs room entry f words) :
    Mapped owner dirs room (update entry f words) := by
  have hcases : ∀ {g i e}, update entry f words g i = some e →
      g = f ∧ words i = some e ∨ g ≠ f ∧ entry g i = some e := by
    intro g i e he
    rcases update_cases (y := update entry f words g) rfl with ⟨hg, hw⟩ | ⟨hg, hw⟩
    · exact .inl ⟨hg, hw ▸ he⟩
    · exact .inr ⟨hg, hw ▸ he⟩
  have hstatic : ∀ {g}, StaticTable dirs entry g →
      StaticTable dirs (update entry f words) g := by
    rintro g ⟨hlow, hnot, huser⟩
    refine ⟨hlow, hnot, ?_⟩
    rw [update_of_ne]
    · exact huser
    · rintro rfl
      exact hw.high.elim hnot fun hhigh => Nat.not_lt.mpr hhigh hlow
  refine ⟨h.dir, fun d hd i e he => ?_, fun d hd e he => ?_, fun d hd i hi e he => ?_,
    fun d hd i hi e he j p hp => ?_, fun d hd i hi e he => ?_, fun g i hg j p hp => ?_⟩
  · rcases hcases he with ⟨rfl, hnew⟩ | ⟨-, he⟩
    · exact hw.word hd i e hnew
    · exact h.word d hd i e he
  · rcases hcases he with ⟨rfl, hnew⟩ | ⟨-, he⟩
    · exact hw.self hd e hnew
    · exact h.self d hd e he
  · rcases hcases he with ⟨rfl, hnew⟩ | ⟨-, he⟩
    · exact (hw.table hd i hi e hnew).1
    · exact h.table d hd i hi e he
  · rcases hcases he with ⟨rfl, hnew⟩ | ⟨-, he⟩
    · exact (hw.table hd i hi e hnew).2 j p hp
    · rcases hcases hp with ⟨hef, hp⟩ | ⟨-, hp⟩
      · rw [hef]
        exact hw.page d i (hef ▸ h.table d hd i hi e he) j p hp
      · exact h.page d hd i hi e he j p hp
  · refine Or.imp_right (And.imp_right hstatic) ?_
    rcases hcases he with ⟨rfl, hnew⟩ | ⟨-, he⟩
    · exact hw.kernel hd i hi e hnew
    · exact h.kernel d hd i hi e he
  · rcases hcases hp with ⟨rfl, hnew⟩ | ⟨-, hp⟩
    · exact hw.heap i hg j p hnew
    · exact h.heap g i hg j p hp

theorem Allows.of_not_dir {f : ℕ} (hdir : f ∉ dirs) (hhigh : pageStartIndex ≤ f)
    (hpage : ∀ d i, owner f = some (.userTable d i) → ∀ j, ∀ p ∈ words j,
      owner p.frame = some (.userPage f j) ∧ (i, j) ∈ room d)
    (hheap : ∀ i, owner f = some (.kernelTable i) → ∀ j, ∀ p ∈ words j,
      p.user = false ∧ (HeapIdx i → owner p.frame = some (.heapPage (i.val * 1024 + j.val)))) :
    Allows owner dirs room entry f words :=
  ⟨.inr hhigh, fun hd => absurd hd hdir, fun hd => absurd hd hdir, fun hd => absurd hd hdir,
    fun hd => absurd hd hdir, hpage, hheap⟩

end Mapped

/-! ## Single steps -/

variable {d : ℕ} {i : Fin 1024}

namespace Owned

variable {owner : ℕ → Option Owner} {h : Holders} {vm vm' : Vm} {f : ℕ}

variable (ho : Owned owner h vm)
include ho

theorem of_eq (hfreeq : vm'.freeq = vm.freeq)
    (hentry : vm'.entry = vm.entry) (hcounts : vm.Counted → vm'.Counted) : Owned owner h vm' := by
  refine ⟨?_, ?_, ho.heapTo, ho.cache, fun honce => hcounts (ho.counts honce)⟩
  · rw [hfreeq]
    exact ho.toLedger
  · rw [hentry]
    exact ho.toMapped

/-- Fewer directories are in use, or a frame is not used after all. -/
theorem mono {dirs taken : Set ℕ} (hdirs : dirs ⊆ h.dirs)
    (htaken : taken ⊆ h.taken) : Owned owner { h with dirs := dirs, taken := taken } vm :=
  ⟨ho.toLedger.mono htaken, ho.toMapped.mono hdirs, ho.heapTo, ho.cache, ho.counts⟩

/-- Directories may have pages where they have them. -/
theorem reroom {room : ℕ → Set (Fin 1024 × Fin 1024)} {once : Prop}
    (hroom : ∀ d ∈ h.dirs, ∀ i, UserIdx i → ∀ e ∈ vm.entry d i, ∀ j, ∀ p ∈ vm.entry e.frame j,
      (i, j) ∈ room d) (hcounts : once → vm.Counted) :
    Owned owner { h with room := room, once := once } vm :=
  ⟨ho.toLedger, ⟨ho.dir, ho.word, ho.self, ho.table, fun d hd i hi e he j p hp =>
    ⟨(ho.page d hd i hi e he j p hp).1, hroom d hd i hi e he j p hp⟩, ho.kernel, ho.heap⟩,
    ho.heapTo, ho.cache, hcounts⟩

omit ho in
theorem settle (hnot : f ∉ h.taken)
    (ho : Owned owner { h with taken := insert f h.taken \ {f} } vm) : Owned owner h vm :=
  ho.mono subset_rfl (Set.insert_sdiff_self_of_notMem hnot).superset

/-- What is used otherwise is no directory. -/
theorem not_dir {r : Owner} (hf : owner f = some r) (hr : r ≠ .dir) : f ∉ h.dirs := by
  intro hd
  rcases ho.dir f hd with hdir | hlow
  · exact hr (Option.some.inj (hf.symm.trans hdir))
  · exact Nat.not_lt.mpr (ho.owned hf).1 hlow

theorem not_dir_of_taken (hf : f ∈ h.taken) : f ∉ h.dirs := by
  obtain ⟨hvalid, hnone, -⟩ := ho.takenNone f hf
  intro hd
  rcases ho.dir f hd with hdir | hlow
  · cases hnone.symm.trans hdir
  · exact Nat.not_lt.mpr hvalid.1 hlow

theorem take {freeq : List ℕ} (hfree : vm.freeq = f :: freeq) :
    Owned owner { h with taken := insert f h.taken } { vm with freeq := freeq } := by
  have hledger := ho.toLedger
  rw [hfree] at hledger
  exact ⟨hledger.take, ho.toMapped, ho.heapTo, ho.cache, ho.counts⟩

theorem give (hf : f ∈ h.taken) (r : Owner)
    (hr : ∀ i, r = .kernelTable i → ∀ j, vm.entry f j = none) :
    Owned (update owner f (some r)) { h with taken := h.taken \ {f} } vm := by
  have hnone := (ho.takenNone f hf).2.1
  have hkeep : ∀ g s, owner g = some s → update owner f (some r) g = some s := by
    intro g s hg
    rw [update_of_ne]
    · exact hg
    · rintro rfl
      cases hnone.symm.trans hg
  refine ⟨ho.toLedger.give hf r, ho.toMapped.grow hkeep fun g i hg => ?_, fun n hn hn' => ?_,
    fun i s hs => hkeep _ _ (ho.cache i s hs), ho.counts⟩
  · rcases update_cases hg with ⟨rfl, hnew⟩ | ⟨-, hg⟩
    · exact .inr (hr i (Option.some.inj hnew))
    · exact .inl hg
  · obtain ⟨g, hg⟩ := ho.heapTo n hn hn'
    exact ⟨g, hkeep g _ hg⟩

/-- What a frame holds before it is used makes no difference. -/
theorem writeTaken (hf : f ∈ h.taken) (words : Fin 1024 → Option Pte) :
    Owned owner h { vm with entry := update vm.entry f words } := by
  obtain ⟨hvalid, hnone, -⟩ := ho.takenNone f hf
  refine ⟨ho.toLedger, ho.toMapped.write (.of_not_dir (ho.not_dir_of_taken hf) hvalid.1 ?_ ?_),
    ho.heapTo, ho.cache, ho.counts⟩
  · exact fun d i hf => nomatch hnone.symm.trans hf
  · exact fun i hf => nomatch hnone.symm.trans hf

theorem writeUserTable (hd : d ∈ h.dirs) (hi : UserIdx i) {e : Pte} (he : vm.entry d i = some e)
    (hwords : ∀ j, ∀ p ∈ words j,
      owner p.frame = some (.userPage e.frame j) ∧ (i, j) ∈ h.room d) :
    Owned owner h { vm with entry := update vm.entry e.frame words } := by
  have htable := ho.table d hd i hi e he
  refine ⟨ho.toLedger, ho.toMapped.write (.of_not_dir (ho.not_dir htable nofun)
    (ho.owned htable).1 ?_ ?_), ho.heapTo, ho.cache, ho.counts⟩
  · intro d' i' htable'
    obtain ⟨rfl, rfl⟩ : d = d' ∧ i = i' := by simpa using htable.symm.trans htable'
    exact hwords
  · exact fun i' hk => nomatch htable.symm.trans hk

theorem setUserPage (hd : d ∈ h.dirs) (hi : UserIdx i) {e : Pte}
    (he : vm.entry d i = some e) {j : Fin 1024} {p : Pte}
    (hp : owner p.frame = some (.userPage e.frame j) ∧ (i, j) ∈ h.room d) :
    Owned owner h (vm.setEntry e.frame j (some p)) := by
  refine ho.writeUserTable hd hi he fun j' p' hp' => ?_
  rcases update_cases hp' with ⟨rfl, hnew⟩ | ⟨-, hp'⟩
  · cases hnew
    exact hp
  · exact ho.page d hd i hi e he j' p' hp'

theorem setKernelPage (hf : owner f = some (.kernelTable i))
    (j : Fin 1024) {p : Option Pte} (hp : ∀ p' ∈ p, p'.user = false ∧
      (HeapIdx i → owner p'.frame = some (.heapPage (i.val * 1024 + j.val)))) :
    Owned owner h (vm.setEntry f j p) := by
  refine ⟨ho.toLedger, ho.toMapped.write (.of_not_dir (ho.not_dir hf nofun) (ho.owned hf).1 ?_ ?_),
    ho.heapTo, ho.cache, ho.counts⟩
  · exact fun d i' hu => nomatch hf.symm.trans hu
  · intro i' hf' j' p' hp'
    obtain rfl : i = i' := by simpa using hf.symm.trans hf'
    rcases update_cases hp' with ⟨rfl, hnew⟩ | ⟨-, hp'⟩
    · exact hp p' hnew
    · exact ho.heap f i hf j' p' hp'

/-- A directory is neither kind of table. -/
theorem dir_ne (hd : d ∈ h.dirs) {r : Owner} (hr : r ≠ .dir) :
    owner d ≠ some r := fun hf => ho.not_dir hf hr hd

/-- A table gets into a directory: an empty one into the user part, or one of the kernel into the
kernel's part. -/
theorem link (hd : d ∈ h.dirs) {e : Pte} (hrw : e.rw = true)
    (hi : UserIdx i ∧ owner e.frame = some (.userTable d i) ∧ (∀ j, vm.entry e.frame j = none) ∨
      KernelIdx i ∧ owner e.frame = some (.kernelTable i)) :
    Owned owner h (vm.setEntry d i (some e)) := by
  have hlast : (1023 : Fin 1024) ≠ i := by
    rintro rfl
    rcases hi with ⟨hi, -⟩ | ⟨hi, -⟩
    · exact absurd hi.2 (by decide)
    · exact absurd hi (by unfold KernelIdx; decide)
  have hne : ∀ {e' : Pte} {i'}, owner e'.frame = some (.userTable d i') → e'.frame ≠ d := by
    rintro e' i' he' rfl
    exact absurd he' (ho.dir_ne hd nofun)
  -- a word is the new one, or was there
  have hcases : ∀ {i' e'}, update (vm.entry d) i (some e) i' = some e' →
      i' = i ∧ e' = e ∨ i' ≠ i ∧ vm.entry d i' = some e' := fun he' =>
    (update_cases he').imp_left (And.imp_right fun he => (Option.some.inj he).symm)
  refine ⟨ho.toLedger, ho.toMapped.write ⟨.inl hd, fun _ i' e' he' => ?_, fun _ e' he' => ?_,
    fun _ i' hi' e' he' => ?_, fun _ i' hi' e' he' => ?_, ?_, ?_⟩, ho.heapTo, ho.cache, ho.counts⟩
  · rcases hcases he' with ⟨-, rfl⟩ | ⟨-, he'⟩
    · exact hrw
    · exact ho.word d hd i' e' he'
  · rcases hcases he' with ⟨hc, -⟩ | ⟨-, he'⟩
    · exact absurd hc hlast
    · exact ho.self d hd e' he'
  · rcases hcases he' with ⟨rfl, rfl⟩ | ⟨-, he'⟩
    · rcases hi with ⟨-, howner, hempty⟩ | ⟨hk, -⟩
      · refine ⟨howner, fun j p hp => ?_⟩
        rw [update_of_ne (hne howner), hempty j] at hp
        cases hp
      · exact absurd rfl (hi'.ne hk)
    · have htable := ho.table d hd i' hi' e' he'
      refine ⟨htable, fun j p hp => ?_⟩
      rw [update_of_ne (hne htable)] at hp
      exact ho.page d hd i' hi' e' he' j p hp
  · rcases hcases he' with ⟨rfl, rfl⟩ | ⟨-, he'⟩
    · rcases hi with ⟨hu, -⟩ | ⟨-, howner⟩
      · exact absurd rfl (hu.ne hi')
      · exact .inl howner
    · exact ho.kernel d hd i' hi' e' he'
  · exact fun _ _ hf => absurd hf (ho.dir_ne hd nofun)
  · exact fun _ hf => absurd hf (ho.dir_ne hd nofun)

end Owned

/-! ## `map_page` -/

theorem Vm.clearTable_setEntry (vm : Vm) {pt : ℕ} (hne : pt ≠ d) (i : Fin 1024) (e : Option Pte) :
    (vm.setEntry d i e).clearTable pt = (vm.clearTable pt).setEntry d i e := by
  simp only [setEntry, clearTable, update_of_ne hne.symm]
  rw [update_comm hne]

namespace Owned

variable {owner : ℕ → Option Owner} {h : Holders} {vm vm' : Vm} {f : ℕ}

/-- What had an owner has it still. -/
def Keeps (owner owner' : ℕ → Option Owner) : Prop := ∀ f r, owner f = some r → owner' f = some r

theorem Keeps.trans {owner1 owner2 : ℕ → Option Owner} (h : Keeps owner owner1)
    (h' : Keeps owner1 owner2) : Keeps owner owner2 := fun f r hf => h' f r (h f r hf)

theorem Keeps.refl (owner : ℕ → Option Owner) : Keeps owner owner := fun _ _ hf => hf

/-- The user part of the directories and its tables are what they were. -/
structure SameUser (owner : ℕ → Option Owner) (dirs : Set ℕ) (vm vm' : Vm) : Prop where
  /-- words of directories -/
  word : ∀ d ∈ dirs, ∀ i, UserIdx i → vm'.entry d i = vm.entry d i
  /-- tables -/
  table : ∀ g d i, owner g = some (.userTable d i) → vm'.entry g = vm.entry g

theorem SameUser.refl {dirs : Set ℕ} (vm : Vm) : SameUser owner dirs vm vm :=
  ⟨fun _ _ _ _ => rfl, fun _ _ _ _ => rfl⟩

theorem SameUser.trans {dirs : Set ℕ} {owner' : ℕ → Option Owner} {vm'' : Vm}
    (h : SameUser owner dirs vm vm') (hkeep : Keeps owner owner')
    (h' : SameUser owner' dirs vm' vm'') : SameUser owner dirs vm vm'' :=
  ⟨fun d hd i hi => (h'.word d hd i hi).trans (h.word d hd i hi),
    fun g d i hg => (h'.table g d i (hkeep g _ hg)).trans (h.table g d i hg)⟩

/-- A frame that is neither is written. -/
theorem SameUser.write {dirs : Set ℕ} (hdir : f ∉ dirs)
    (htable : ∀ d i, owner f ≠ some (.userTable d i))
    (hentry : vm'.entry = update vm.entry f words) : SameUser owner dirs vm vm' := by
  refine ⟨fun d hd i _ => ?_, fun g d i hg => ?_⟩ <;> rw [hentry]
  · refine congrFun (update_of_ne ?_ ..) i
    rintro rfl
    exact hdir hd
  · refine update_of_ne ?_ ..
    rintro rfl
    exact htable d i hg

variable (ho : Owned owner h vm)
include ho

/-- A word of the kernel's part of a directory is written. -/
theorem SameUser.setKernel (hd : d ∈ h.dirs) (hi : KernelIdx i)
    (e : Option Pte) : SameUser owner h.dirs vm (vm.setEntry d i e) := by
  refine ⟨fun d' _ i' hi' => ?_, fun g d' i' hg => ?_⟩
  · rw [Vm.entry_setEntry, if_neg fun hc => hi'.ne hi hc.2]
  · refine update_of_ne ?_ ..
    rintro rfl
    exact absurd hg (ho.dir_ne hd nofun)

theorem emptyTable {pt : ℕ} {freeq : List ℕ} (hfree : vm.freeq = pt :: freeq) (r : Owner) :
    ∃ owner', Keeps owner owner' ∧ owner' pt = some r ∧ pt ∉ h.dirs ∧
      SameUser owner h.dirs vm (({ vm with freeq := freeq } : Vm).clearTable pt) ∧
      Owned owner' h (({ vm with freeq := freeq } : Vm).clearTable pt) := by
  have htaken : pt ∈ insert pt h.taken := Set.mem_insert ..
  have hcleared := (ho.take hfree).writeTaken htaken fun _ => none
  have hgiven := hcleared.give htaken r fun _ _ _ => by simp
  have hmem : pt ∈ vm.freeq := hfree ▸ List.mem_cons_self
  have hdir := hcleared.not_dir_of_taken htaken
  refine ⟨_, fun g s hg => ?_, update_self .., hdir,
    .write hdir (fun _ _ hpt => ho.not_mem_free hpt hmem) rfl,
    settle (fun hg => (ho.takenNone pt hg).2.2 hmem) hgiven⟩
  rw [update_of_ne]
  · exact hg
  · rintro rfl
    exact ho.not_mem_free hg hmem

/-- **`map_page` of a user page.** -/
theorem mapUser (hcr3 : vm.cr3 ∈ h.dirs) {va : ℕ}
    (hva : UserIdx (pdIdx va)) (hroom : (pdIdx va, ptIdx va) ∈ h.room vm.cr3)
    (hf : f ∈ h.taken) (user : Bool) :
    ∃ owner', Owned owner' { h with taken := h.taken \ {f} } (vm.mapPage va f user) := by
  -- with the table there
  have hset : ∀ {owner vm'} {e : Pte}, Owned owner h vm' → vm'.entry vm.cr3 (pdIdx va) = some e →
      ∃ owner', Owned owner' { h with taken := h.taken \ {f} }
        (vm'.setEntry e.frame (ptIdx va) (some ⟨f, true, user⟩)) := by
    intro owner vm' e ho he
    have hgiven := ho.give hf (.userPage e.frame (ptIdx va)) nofun
    exact ⟨_, hgiven.setUserPage hcr3 hva he ⟨update_self .., hroom⟩⟩
  unfold Vm.mapPage
  cases he : vm.entry vm.cr3 (pdIdx va) with
  | some e => exact hset ho he
  | none =>
    rcases vm.allocPhysPage_cases with ⟨halloc, -⟩ | ⟨pt, freeq, hfree, halloc⟩
    · simp only [halloc]
      exact ⟨owner, ho.mono (fun _ hd => hd) Set.sdiff_subset⟩
    · simp only [halloc]
      obtain ⟨owner', -, hpt, hdir, -, hempty⟩ :=
        ho.emptyTable hfree (.userTable vm.cr3 (pdIdx va))
      have hne : pt ≠ vm.cr3 := fun hc => hdir (hc ▸ hcr3)
      have hlinked := hempty.link (e := ⟨pt, true, true⟩) hcr3 rfl
        (.inl ⟨hva, hpt, fun _ => by simp [Vm.clearTable]⟩)
      have hcomm := Vm.clearTable_setEntry { vm with freeq := freeq } hne (pdIdx va)
        (some ⟨pt, true, true⟩)
      rw [← hcomm] at hlinked
      refine hset (e := ⟨pt, true, true⟩) hlinked ?_
      rw [hcomm, Vm.entry_setEntry, if_pos ⟨rfl, rfl⟩]

/-- **`map_page` of a page of the kernel**, behind the first 64 MiB. -/
theorem mapKernel (hcr3 : vm.cr3 ∈ h.dirs) {va : ℕ}
    (hva : 784 ≤ (pdIdx va).val ∧ (pdIdx va).val < 1023)
    (hf : HeapIdx (pdIdx va) →
      owner f = some (.heapPage ((pdIdx va).val * 1024 + (ptIdx va).val))) :
    ∃ owner', Keeps owner owner' ∧ Owned owner' h (vm.mapPage va f false) ∧
      SameUser owner h.dirs vm (vm.mapPage va f false) := by
  have hidx : KernelIdx (pdIdx va) := .inr ⟨Nat.le_trans (by decide) hva.1, hva.2⟩
  -- with the table there
  have hset : ∀ {owner' vm' pt}, Keeps owner owner' → Owned owner' h vm' →
      SameUser owner h.dirs vm vm' → owner' pt = some (.kernelTable (pdIdx va)) →
      Owned owner' h (vm'.setEntry pt (ptIdx va) (some ⟨f, true, false⟩)) ∧
        SameUser owner h.dirs vm (vm'.setEntry pt (ptIdx va) (some ⟨f, true, false⟩)) := by
    intro owner' vm' pt hkeep ho hsame hpt
    refine ⟨ho.setKernelPage hpt _ fun p hp => ?_, hsame.trans hkeep (.write
      (ho.not_dir hpt nofun) (fun _ _ hu => nomatch hpt.symm.trans hu) rfl)⟩
    cases hp
    exact ⟨rfl, fun hheap => hkeep _ _ (hf hheap)⟩
  unfold Vm.mapPage
  cases he : vm.entry vm.cr3 (pdIdx va) with
  | some e =>
    have htable := (ho.kernel vm.cr3 hcr3 _ hidx e he).resolve_right
      fun hlow => Nat.not_lt.mpr hva.1 hlow.1
    exact ⟨owner, .refl owner, hset (.refl owner) ho (.refl vm) htable⟩
  | none =>
    rcases vm.allocPhysPage_cases with ⟨halloc, -⟩ | ⟨pt, freeq, hfree, halloc⟩
    · simp only [halloc]
      exact ⟨owner, .refl owner, ho, .refl vm⟩
    · simp only [halloc]
      obtain ⟨owner', hkeep, hpt, hdir, hsame, hempty⟩ :=
        ho.emptyTable hfree (.kernelTable (pdIdx va))
      have hne : pt ≠ vm.cr3 := fun hc => hdir (hc ▸ hcr3)
      have hlinked := hempty.link (e := ⟨pt, true, true⟩) hcr3 rfl (.inr ⟨hidx, hpt⟩)
      have hsame' := hsame.trans hkeep
        (SameUser.setKernel hempty hcr3 hidx (some ⟨pt, true, true⟩))
      rw [← Vm.clearTable_setEntry _ hne] at hlinked hsame'
      exact ⟨owner', hkeep, hset hkeep hlinked hsame' hpt⟩

theorem unmapKernel (hcr3 : vm.cr3 ∈ h.dirs) {va : ℕ}
    (hva : 784 ≤ (pdIdx va).val ∧ (pdIdx va).val < 1023) :
    Owned owner h (vm.unmapPage va) ∧ SameUser owner h.dirs vm (vm.unmapPage va) := by
  unfold Vm.unmapPage
  cases he : vm.entry vm.cr3 (pdIdx va) with
  | none => exact ⟨ho, .refl vm⟩
  | some e =>
    have hidx : KernelIdx (pdIdx va) := .inr ⟨Nat.le_trans (by decide) hva.1, hva.2⟩
    have htable := (ho.kernel vm.cr3 hcr3 _ hidx e he).resolve_right
      fun hlow => Nat.not_lt.mpr hva.1 hlow.1
    exact ⟨ho.setKernelPage htable _ (p := none) nofun,
      .write (ho.not_dir htable nofun) (fun _ _ hu => nomatch htable.symm.trans hu) rfl⟩

end Owned

end PokuOS
