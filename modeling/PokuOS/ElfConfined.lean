import PokuOS.Elf

/-!
# What the loader can reach

`elf_load` checks nothing about the addresses in program headers, so what it maps and writes
is up to the image. `ImageOk` is the condition on the image under which it stays in the user
range: the headers lie in the buffer of the file, and every segment in the user range. Among the
images with their headers there it is exact (`elfLoad_confined_iff`).

What the loader does with an image in order is a short list of steps (`Loading`), and `Confined` is
a preorder that allows them. For the other direction, the page tables of `allPresentBut` make the
loop over pages do nothing up to a page of choice.
-/

namespace PokuOS

open Function List

/-! ## Kernel mappings -/

/-- Directory entries of the user range. -/
def UserIdx (i : Fin 1024) : Prop := 1 ≤ i.val ∧ i.val < 768

/-- Directory entries of the kernel, the recursive one apart. -/
def KernelIdx (i : Fin 1024) : Prop := i.val = 0 ∨ 768 ≤ i.val ∧ i.val < 1023

/-- Addresses mapped by the kernel, the window on the tables apart. -/
def kernelRange : Set ℕ := {a | a < 0x00400000 ∨ 0xC0000000 ≤ a ∧ a < 0xFFC00000}

theorem pdIdx_val (vaddr : ℕ) : (pdIdx vaddr).val = vaddr / 2 ^ 22 % 1024 := rfl

variable {vaddr : ℕ}

theorem userIdx_pdIdx (h : vaddr ∈ userRange) : UserIdx (pdIdx vaddr) := by
  obtain ⟨h1, h2⟩ := h
  unfold UserIdx
  rw [pdIdx_val]
  omega

theorem kernelIdx_pdIdx (h : vaddr ∈ kernelRange) : KernelIdx (pdIdx vaddr) := by
  have h : vaddr < 0x00400000 ∨ 0xC0000000 ≤ vaddr ∧ vaddr < 0xFFC00000 := h
  unfold KernelIdx
  rw [pdIdx_val]
  omega

theorem UserIdx.ne {i j : Fin 1024} (hi : UserIdx i) (hj : KernelIdx j) : i ≠ j := by
  rintro rfl
  unfold UserIdx at hi
  unfold KernelIdx at hj
  omega

namespace Vm

variable {vm : Vm}

/-- The loaded directory and the kernel's tables are neither free nor tables of the user
range. -/
structure Separate (vm : Vm) : Prop where
  /-- the directory is not free -/
  freeDir : vm.cr3 ∉ vm.freeq
  /-- no kernel table is free -/
  freeKernel : ∀ i, KernelIdx i → ∀ e ∈ vm.entry vm.cr3 i, e.frame ∉ vm.freeq
  /-- no kernel table is the directory -/
  kernelDir : ∀ i, KernelIdx i → ∀ e ∈ vm.entry vm.cr3 i, e.frame ≠ vm.cr3
  /-- no table of the user range is the directory -/
  userDir : ∀ i, UserIdx i → ∀ e ∈ vm.entry vm.cr3 i, e.frame ≠ vm.cr3
  /-- no table of the user range is a kernel table -/
  userKernel : ∀ i, UserIdx i → ∀ e ∈ vm.entry vm.cr3 i,
    ∀ j, KernelIdx j → ∀ e' ∈ vm.entry vm.cr3 j, e.frame ≠ e'.frame

theorem entry_setEntry (f g : ℕ) (i j : Fin 1024) (e : Option Pte) :
    (vm.setEntry f i e).entry g j = if g = f ∧ j = i then e else vm.entry g j := by
  unfold setEntry
  by_cases hg : g = f
  · subst hg
    by_cases hj : j = i
    · subst hj
      simp
    · simp [hj]
  · simp [hg]

theorem entry_clearTable (f g : ℕ) (j : Fin 1024) :
    (vm.clearTable f).entry g j = if g = f then none else vm.entry g j := by
  unfold clearTable
  by_cases hg : g = f
  · subst hg
    simp
  · simp [hg]

@[simp] theorem cr3_setEntry (f : ℕ) (i : Fin 1024) (e : Option Pte) :
    (vm.setEntry f i e).cr3 = vm.cr3 := rfl

@[simp] theorem freeq_setEntry (f : ℕ) (i : Fin 1024) (e : Option Pte) :
    (vm.setEntry f i e).freeq = vm.freeq := rfl

@[simp] theorem cr3_clearTable (f : ℕ) : (vm.clearTable f).cr3 = vm.cr3 := rfl

@[simp] theorem freeq_clearTable (f : ℕ) : (vm.clearTable f).freeq = vm.freeq := rfl

/-- Taking a frame off the free list, or not. -/
theorem allocPhysPage_cases (vm : Vm) :
    vm.allocPhysPage = (none, vm) ∧ vm.freeq = [] ∨
      ∃ f freeq, vm.freeq = f :: freeq ∧
        vm.allocPhysPage = (some f, { vm with freeq := freeq }) := by
  unfold allocPhysPage
  cases hfree : vm.freeq with
  | nil => exact .inl ⟨rfl, rfl⟩
  | cons f freeq => exact .inr ⟨f, freeq, rfl, rfl⟩

/-- Kernel mappings are as they were. -/
structure KernelKept (vm vm' : Vm) : Prop where
  cr3 : vm'.cr3 = vm.cr3
  /-- tables are still apart -/
  separate : vm'.Separate
  /-- the kernel's part of the directory -/
  dir : ∀ j, KernelIdx j → vm'.entry vm.cr3 j = vm.entry vm.cr3 j
  /-- the kernel's tables -/
  tables : ∀ j, KernelIdx j → ∀ e ∈ vm.entry vm.cr3 j, vm'.entry e.frame = vm.entry e.frame

variable (h : vm.Separate)
include h

theorem KernelKept.refl : KernelKept vm vm :=
  ⟨rfl, h, fun _ _ => rfl, fun _ _ _ _ => rfl⟩

omit h in
theorem KernelKept.trans {vm' vm'' : Vm} (h : KernelKept vm vm') (h' : KernelKept vm' vm'') :
    KernelKept vm vm'' := by
  refine ⟨h'.cr3.trans h.cr3, h'.separate, fun j hj => ?_, fun j hj e he => ?_⟩
  · rw [← h.dir j hj, ← h.cr3]
    exact h'.dir j hj
  · rw [← h.tables j hj e he]
    refine h'.tables j hj e ?_
    rw [h.cr3, h.dir j hj]
    exact he

theorem Separate.shrink {freeq : List ℕ} (hsub : freeq ⊆ vm.freeq)
    (refCount : ℕ → ℕ) (pressure : Bool) :
    KernelKept vm { vm with freeq := freeq, refCount := refCount, pressure := pressure } :=
  ⟨rfl, ⟨fun hf => h.freeDir (hsub hf), fun i hi e he hf => h.freeKernel i hi e he (hsub hf),
    h.kernelDir, h.userDir, h.userKernel⟩, fun _ _ => rfl, fun _ _ _ _ => rfl⟩

theorem Separate.allocPageFrame : KernelKept vm vm.allocPageFrame.2 := by
  unfold Vm.allocPageFrame
  rcases vm.allocPhysPage_cases with ⟨halloc, -⟩ | ⟨f, freeq, hfree, halloc⟩
  · rw [halloc]
    exact h.shrink (List.Subset.refl _) vm.refCount true
  · rw [halloc]
    have hsub : freeq ⊆ vm.freeq := fun x hx => by
      rw [hfree]
      exact mem_cons_of_mem _ hx
    simp only
    split
    · exact h.shrink hsub _ vm.pressure
    · exact h.shrink hsub vm.refCount vm.pressure

theorem Separate.setEntry_table {i : Fin 1024} (hi : UserIdx i) {pde : Pte}
    (hpde : vm.entry vm.cr3 i = some pde) (j : Fin 1024) (e : Option Pte) :
    KernelKept vm (vm.setEntry pde.frame j e) := by
  have hdir : ∀ k, (vm.setEntry pde.frame j e).entry vm.cr3 k = vm.entry vm.cr3 k := fun k => by
    rw [entry_setEntry, if_neg fun hc => h.userDir i hi pde hpde hc.1.symm]
  refine ⟨rfl, ⟨h.freeDir, ?_, ?_, ?_, ?_⟩, fun k _ => hdir k, fun k hk e' he' => ?_⟩
  · intro k hk e' he'
    exact h.freeKernel k hk e' (hdir k ▸ he')
  · intro k hk e' he'
    exact h.kernelDir k hk e' (hdir k ▸ he')
  · intro k hk e' he'
    exact h.userDir k hk e' (hdir k ▸ he')
  · intro k hk e' he' k' hk' e'' he''
    exact h.userKernel k hk e' (hdir k ▸ he') k' hk' e'' (hdir k' ▸ he'')
  · funext k'
    rw [entry_setEntry, if_neg fun hc => h.userKernel i hi pde hpde k hk e' he' hc.1.symm]

theorem Separate.newTable {i : Fin 1024} (hi : UserIdx i) {pt : ℕ}
    {freeq : List ℕ} (hfree : vm.freeq = pt :: freeq) :
    KernelKept vm ((({ vm with freeq := freeq } : Vm).setEntry vm.cr3 i
      (some ⟨pt, true, true⟩)).clearTable pt) := by
  set vm' := (({ vm with freeq := freeq } : Vm).setEntry vm.cr3 i
    (some ⟨pt, true, true⟩)).clearTable pt with hvm'
  have hpt : vm.cr3 ≠ pt := fun hc => h.freeDir (by rw [hfree, hc]; exact mem_cons_self)
  have hsub : ∀ x ∈ freeq, x ∈ vm.freeq := fun x hx => by
    rw [hfree]
    exact mem_cons_of_mem _ hx
  have hdir : ∀ k, vm'.entry vm.cr3 k =
      if k = i then some ⟨pt, true, true⟩ else vm.entry vm.cr3 k := fun k => by
    rw [hvm', entry_clearTable, if_neg hpt, entry_setEntry]
    simp
  have hkernel : ∀ k, KernelIdx k → vm'.entry vm.cr3 k = vm.entry vm.cr3 k := fun k hk => by
    rw [hdir, if_neg (hi.ne hk).symm]
  have hnot : ∀ k, KernelIdx k → ∀ e ∈ vm.entry vm.cr3 k, e.frame ≠ pt := fun k hk e he hc =>
    h.freeKernel k hk e he (by rw [hfree, hc]; exact mem_cons_self)
  refine ⟨rfl, ⟨fun hf => h.freeDir (hsub _ hf), ?_, ?_, ?_, ?_⟩, hkernel, fun k hk e he => ?_⟩
  · intro k hk e he hf
    exact h.freeKernel k hk e (hkernel k hk ▸ he) (hsub _ hf)
  · intro k hk e he
    exact h.kernelDir k hk e (hkernel k hk ▸ he)
  · intro k hk e he
    rw [show vm'.cr3 = vm.cr3 from rfl, hdir] at he
    split at he
    · cases he
      exact hpt.symm
    · exact h.userDir k hk e he
  · intro k hk e he k' hk' e' he'
    have he' : e' ∈ vm.entry vm.cr3 k' := hkernel k' hk' ▸ he'
    rw [show vm'.cr3 = vm.cr3 from rfl, hdir] at he
    split at he
    · cases he
      exact (hnot k' hk' e' he').symm
    · exact h.userKernel k hk e he k' hk' e' he'
  · funext k'
    rw [hvm', entry_clearTable, if_neg (hnot k hk e he), entry_setEntry,
      if_neg fun hc => h.kernelDir k hk e he hc.1]

/-- **`map_page`** of a user page leaves the kernel's mappings alone. -/
theorem Separate.mapPage (hva : vaddr ∈ userRange) (frame : ℕ) (user : Bool) :
    KernelKept vm (vm.mapPage vaddr frame user) := by
  have hi := userIdx_pdIdx hva
  unfold Vm.mapPage
  cases hpde : vm.entry vm.cr3 (pdIdx vaddr) with
  | some pde => exact h.setEntry_table hi hpde _ _
  | none =>
    rcases vm.allocPhysPage_cases with ⟨halloc, -⟩ | ⟨pt, freeq, hfree, halloc⟩
    · rw [halloc]
      exact KernelKept.refl h
    · rw [halloc]
      have hnew := h.newTable hi hfree
      have hpt : vm.cr3 ≠ pt := fun hc =>
        h.freeDir (by rw [hfree, hc]; exact mem_cons_self)
      have hentry : ((({ vm with freeq := freeq } : Vm).setEntry vm.cr3 (pdIdx vaddr)
          (some ⟨pt, true, true⟩)).clearTable pt).entry vm.cr3 (pdIdx vaddr) =
            some ⟨pt, true, true⟩ := by
        rw [entry_clearTable, if_neg hpt, entry_setEntry, if_pos ⟨rfl, rfl⟩]
      exact hnew.trans (hnew.separate.setEntry_table hi hentry _ _)

end Vm

/-! ## Staying in the user range -/

/-- What the loader did between two states stays in the user range. -/
structure Confined (l l' : Loader) : Prop where
  /-- all that was mapped or written -/
  effects : ∀ e ∈ l'.log, e ∈ l.log ∨ e.addresses ⊆ userRange
  /-- memory elsewhere is unchanged -/
  mem : Mem.SameOff userRange l.mem l'.mem
  /-- so are the kernel's mappings -/
  maps : l.vm.Separate → Vm.KernelKept l.vm l'.vm

namespace Confined

variable {l l' l'' : Loader}

theorem refl (l : Loader) : Confined l l :=
  ⟨fun _ he => .inl he, Mem.SameOff.refl _ _, Vm.KernelKept.refl⟩

theorem trans (h : Confined l l') (h' : Confined l' l'') : Confined l l'' := by
  refine ⟨fun e he => ?_, h.mem.trans h'.mem, fun hs => ?_⟩
  · rcases h'.effects e he with he | he
    · exact h.effects e he
    · exact .inr he
  · exact (h.maps hs).trans (h'.maps (h.maps hs).separate)

/-- A page of the user range is mapped. -/
theorem map {va : ℕ} (hva : va ∈ userRange) (halign : va % pageSize = 0) {paddr : ℕ} {vm : Vm}
    (halloc : l.vm.allocPageFrame = (some paddr, vm)) :
    Confined l { l with vm := vm.mapPage va paddr true, log := .map va :: l.log } := by
  refine ⟨fun e he => ?_, Mem.SameOff.refl _ _, fun hs => ?_⟩
  · rcases mem_cons.mp he with rfl | he
    · refine .inr fun a ha => ?_
      obtain ⟨h1, h2⟩ := hva
      obtain ⟨ha1, ha2⟩ : va ≤ a ∧ a < va + pageSize := ha
      unfold pageSize at halign ha2
      exact ⟨by omega, by omega⟩
    · exact .inl he
  · have hkept := hs.allocPageFrame
    rw [halloc] at hkept
    exact hkept.trans (hkept.separate.mapPage hva paddr true)

end Confined

/-! ### Copying -/

variable {S : Set ℕ} {n : ℕ}

theorem sameOff_memcpy :
    ∀ {m : Mem} {dst src : ℕ}, (∀ k < n, (dst + k) % 2 ^ 32 ∈ S) →
      Mem.SameOff S m (m.memcpy n dst src) := by
  induction n with
  | zero =>
    intro m dst src _
    exact Mem.SameOff.refl _ _
  | succ n ih =>
    intro m dst src h
    have hfirst : Mem.SameOff S m (update m (dst % 2 ^ 32) (m (src % 2 ^ 32))) :=
      fun x hx => update_of_ne (by rintro rfl; exact hx (h 0 (by omega))) _ _
    refine hfirst.trans (ih fun k hk => ?_)
    rw [Nat.add_assoc, Nat.add_comm 1]
    exact h (k + 1) (by omega)

theorem sameOff_memset {c : UInt8} :
    ∀ {m : Mem} {dst : ℕ}, (∀ k < n, (dst + k) % 2 ^ 32 ∈ S) →
      Mem.SameOff S m (m.memset n dst c) := by
  induction n with
  | zero =>
    intro m dst _
    exact Mem.SameOff.refl _ _
  | succ n ih =>
    intro m dst h
    have hfirst : Mem.SameOff S m (update m (dst % 2 ^ 32) c) :=
      fun x hx => update_of_ne (by rintro rfl; exact hx (h 0 (by omega))) _ _
    refine hfirst.trans (ih fun k hk => ?_)
    rw [Nat.add_assoc, Nat.add_comm 1]
    exact h (k + 1) (by omega)

/-! ### Reading again -/

section SameOff

variable {m m' : Mem} (hs : Mem.SameOff userRange m m') {a : ℕ} (ha : 0xC0000000 ≤ a)
include hs ha

theorem byteAt_sameOff (ha' : a < 2 ^ 32) : m'.byteAt a = m.byteAt a := by
  have hout : a % 2 ^ 32 ∉ userRange := by
    rintro ⟨-, h⟩
    omega
  rw [Mem.byteAt, Mem.byteAt, hs _ hout]

theorem halfAt_sameOff (ha' : a + 2 ≤ 2 ^ 32) : m'.halfAt a = m.halfAt a := by
  rw [Mem.halfAt, Mem.halfAt, byteAt_sameOff hs ha (by omega),
    byteAt_sameOff hs (by omega) (by omega)]

theorem wordAt_sameOff (ha' : a + 4 ≤ 2 ^ 32) : m'.wordAt a = m.wordAt a := by
  rw [Mem.wordAt, Mem.wordAt, halfAt_sameOff hs ha (by omega),
    halfAt_sameOff hs (by omega) (by omega)]

/-- A header above the user range is read as before. -/
theorem phdrAt_sameOff (ha' : a + 32 ≤ 2 ^ 32) : phdrAt m' a = phdrAt m a := by
  rw [phdrAt, phdrAt, wordAt_sameOff hs ha (by omega), wordAt_sameOff hs (by omega) (by omega),
    wordAt_sameOff hs (by omega) (by omega), wordAt_sameOff hs (by omega) (by omega),
    wordAt_sameOff hs (by omega) (by omega)]

end SameOff

/-! ## The condition on the image -/

/-- `EXEC_BUF_SIZE`. -/
def execBufSize : ℕ := 65536

/-- A segment is loaded into the user range: it is empty and starts at a page, or it lies in
the user range. -/
def SegmentOk (h : Phdr) : Prop :=
  h.pType = ptLoad →
    max h.pFilesz h.pMemsz = 0 ∧ h.pVaddr % pageSize = 0 ∨
      0x00400000 ≤ h.pVaddr ∧ h.pVaddr + max h.pFilesz h.pMemsz ≤ 0xC0000000

instance (h : Phdr) : Decidable (SegmentOk h) := inferInstanceAs (Decidable (_ → _ ∧ _ ∨ _ ∧ _))

/-- The program headers lie in the buffer of the file, which is in the kernel heap. The frame of
a page of a segment has a second address in the window on physical memory below the heap, which
`Mem` does not show: headers in the buffer are at neither. -/
structure HeadersInBuffer (m : Mem) (data : ℕ) : Prop where
  /-- the buffer begins in the heap -/
  heap : 0xD0000000 ≤ data
  /-- and ends there -/
  fits : data + execBufSize ≤ 0xE0000000
  /-- the headers are in it -/
  headers : ePhoff m data + 32 * ePhnum m data ≤ execBufSize

/-- The image at `data` is rejected, or its headers lie in its buffer and every segment is loaded
into the user range. -/
def ImageOk (m : Mem) (data : ℕ) : Prop :=
  data ≠ 0 → headerAccepted m data → HeadersInBuffer m data ∧
    ∀ i < ePhnum m data, SegmentOk (phdrAt m (data + ePhoff m data + 32 * i))

namespace HeadersInBuffer

variable {m m' : Mem} {data : ℕ} (ht : HeadersInBuffer m data)
include ht

theorem bounds {i : ℕ} (hi : i < ePhnum m data) :
    0xC0000000 ≤ data + ePhoff m data + 32 * i ∧ data + ePhoff m data + 32 * i + 32 ≤ 2 ^ 32 := by
  obtain ⟨hheap, hfits, hheaders⟩ := ht
  rw [execBufSize] at hfits hheaders
  omega

variable (hs : Mem.SameOff userRange m m')
include hs

theorem phdrAt_eq {i : ℕ} (hi : i < ePhnum m data) :
    phdrAt m' (data + ePhoff m data + 32 * i) = phdrAt m (data + ePhoff m data + 32 * i) :=
  phdrAt_sameOff hs (ht.bounds hi).1 (ht.bounds hi).2

theorem ePhnum_eq : ePhnum m' data = ePhnum m data := by
  obtain ⟨hheap, hfits, -⟩ := ht
  rw [execBufSize] at hfits
  exact halfAt_sameOff hs (by omega) (by omega)

end HeadersInBuffer

variable {data a : ℕ} {m : Mem}

theorem write_subset {va : ℕ} (h : n = 0 ∨ 0x00400000 ≤ va ∧ va + n ≤ 0xC0000000) :
    (Effect.write va n).addresses ⊆ userRange := by
  rintro a ⟨k, hk, rfl⟩
  rcases h with rfl | ⟨h1, h2⟩
  · omega
  · rw [Nat.mod_eq_of_lt (by omega)]
    exact ⟨by omega, by omega⟩

/-- A segment in order that was copied: the header is read again as it was. -/
theorem phdrAt_copyFile (data : ℕ) (ha : 0xC0000000 ≤ a ∧ a + 32 ≤ 2 ^ 32)
    (hw : (Effect.write (phdrAt m a).pVaddr (phdrAt m a).pFilesz).addresses ⊆ userRange) :
    Mem.SameOff userRange m (copyFile m data a) ∧ phdrAt (copyFile m data a) a = phdrAt m a := by
  have hs : Mem.SameOff userRange m (copyFile m data a) :=
    sameOff_memcpy fun k hk => hw ⟨k, hk, rfl⟩
  exact ⟨hs, phdrAt_sameOff hs ha.1 ha.2⟩

/-- **A segment in order is written to the user range.** -/
theorem SegmentOk.copySegment (hok : SegmentOk (phdrAt m a)) (data : ℕ)
    (hload : (phdrAt m a).pType = ptLoad) (ha : 0xC0000000 ≤ a ∧ a + 32 ≤ 2 ^ 32) :
    Mem.SameOff userRange m (PokuOS.copySegment m data a) ∧
      ∀ e ∈ segmentWrites m data a, e.addresses ⊆ userRange := by
  have hok := hok hload
  have hfile : (Effect.write (phdrAt m a).pVaddr (phdrAt m a).pFilesz).addresses ⊆ userRange :=
    write_subset (by omega)
  obtain ⟨hs, hagain⟩ := phdrAt_copyFile data ha hfile
  unfold PokuOS.copySegment segmentWrites
  simp only [hagain]
  generalize phdrAt m a = h at *
  split
  · have hrest : (Effect.write (h.pVaddr + h.pFilesz) (h.pMemsz - h.pFilesz)).addresses ⊆
        userRange := write_subset (by omega)
    exact ⟨hs.trans (sameOff_memset fun k hk => hrest ⟨k, hk, rfl⟩),
      forall_mem_cons.mpr ⟨hrest, forall_mem_cons.mpr ⟨hfile, nofun⟩⟩⟩
  · exact ⟨hs, forall_mem_cons.mpr ⟨hfile, nofun⟩⟩

theorem loadPages_mem (fuel : ℕ) : ∀ (l : Loader) (va vaEnd : ℕ),
    (loadPages fuel l va vaEnd).2.mem = l.mem := by
  induction fuel with
  | zero => exact fun _ _ _ => rfl
  | succ fuel ih =>
    intro l va vaEnd
    rw [loadPages]
    split
    · split
      · exact ih _ _ _
      · rcases l.vm.allocPageFrame with ⟨paddr, vm⟩
        cases paddr with
        | none => rfl
        | some paddr => exact ih _ _ _
    · rfl

variable {fuel : ℕ}

theorem loadSegment_mem {l l' : Loader} (hr : loadSegment fuel l data a = (some true, l')) :
    l'.mem = copySegment l.mem data a := by
  have hmem := loadPages_mem fuel l (phdrAt l.mem a).vaStart (phdrAt l.mem a).vaEnd
  unfold loadSegment at hr
  split at hr
  · rename_i l1 hpages
    rw [hpages] at hmem
    obtain ⟨-, rfl⟩ := Prod.mk.inj hr
    exact congrArg (copySegment · data a) hmem
  · rename_i hne
    exact absurd hr (hne l')

/-! ## Loops -/

/-- The preorder allows what the loader does with an image in order. -/
structure Loading (T : Loader → Loader → Prop) : Prop where
  /-- nothing is done -/
  refl : ∀ l, T l l
  /-- one thing after the other -/
  trans : ∀ {l l' l''}, T l l' → T l' l'' → T l l''
  /-- there is no frame left -/
  fail : ∀ {l : Loader} {vm : Vm}, l.vm.allocPageFrame = (none, vm) → T l { l with vm := vm }
  /-- a page of the user range that is not there is mapped -/
  map : ∀ {l : Loader} {va paddr : ℕ} {vm : Vm}, va ∈ userRange → va % pageSize = 0 →
    l.vm.pagePresent va = false → l.vm.allocPageFrame = (some paddr, vm) →
    T l { l with vm := vm.mapPage va paddr true, log := .map va :: l.log }
  /-- bytes of the user range are written -/
  copy : ∀ (l : Loader) {m : Mem} {log : List Effect}, Mem.SameOff userRange l.mem m →
    (∀ e ∈ log, e.addresses ⊆ userRange) → T l { l with mem := m, log := log ++ l.log }

namespace Loading

variable {T : Loader → Loader → Prop} (hT : Loading T)
include hT

/-- The loop over the pages of a segment in the user range. -/
theorem loadPages :
    ∀ {l : Loader} {va vaEnd : ℕ}, va % pageSize = 0 →
      (va < vaEnd → 0x00400000 ≤ va ∧ vaEnd ≤ 0xC0000000) →
      T l (PokuOS.loadPages fuel l va vaEnd).2 := by
  induction fuel with
  | zero =>
    intro l va vaEnd _ _
    exact hT.refl l
  | succ fuel ih =>
    intro l va vaEnd halign hrange
    rw [PokuOS.loadPages]
    split
    · rename_i hlt
      obtain ⟨hlo, hhi⟩ := hrange hlt
      have hnext : add32 va pageSize = va + pageSize := add32_eq (by unfold pageSize; omega)
      have halign' : (va + pageSize) % pageSize = 0 := by
        rw [Nat.add_mod_right]
        exact halign
      have hrange' : va + pageSize < vaEnd → 0x00400000 ≤ va + pageSize ∧ vaEnd ≤ 0xC0000000 :=
        fun _ => ⟨by omega, hhi⟩
      rw [hnext]
      split
      · exact ih halign' hrange'
      · rename_i habsent
        rcases halloc : l.vm.allocPageFrame with ⟨paddr, vm⟩
        cases paddr with
        | none => exact hT.fail halloc
        | some paddr =>
          refine hT.trans (hT.map ⟨hlo, by omega⟩ halign ?_ halloc) (ih halign' hrange')
          exact Bool.eq_false_iff.mpr habsent
    · exact hT.refl l

theorem loadSegment (fuel data : ℕ) (l : Loader) (hok : SegmentOk (phdrAt l.mem a))
    (hload : (phdrAt l.mem a).pType = ptLoad) (ha : 0xC0000000 ≤ a ∧ a + 32 ≤ 2 ^ 32) :
    T l (PokuOS.loadSegment fuel l data a).2 := by
  set h := phdrAt l.mem a with hh
  have hpages : T l (PokuOS.loadPages fuel l h.vaStart h.vaEnd).2 := by
    refine hT.loadPages (Nat.mul_mod_left _ _) fun hlt => ?_
    have hok := hok hload
    unfold Phdr.vaStart Phdr.vaEnd at *
    unfold pageSize add32 at *
    omega
  have hmem := loadPages_mem fuel l h.vaStart h.vaEnd
  unfold PokuOS.loadSegment
  rw [← hh]
  rcases hr : PokuOS.loadPages fuel l h.vaStart h.vaEnd with ⟨r, l1⟩
  rw [hr] at hpages hmem
  have hmem : l1.mem = l.mem := hmem
  rcases r with _ | _ | _
  · exact hpages
  · exact hpages
  · rw [hh, ← hmem] at hok hload
    obtain ⟨hs, hwrites⟩ := hok.copySegment data hload ha
    exact hT.trans hpages (hT.copy l1 hs hwrites)

theorem loadSegments (ht : HeadersInBuffer m data)
    (hok : ∀ i < ePhnum m data, SegmentOk (phdrAt m (data + ePhoff m data + 32 * i))) :
    ∀ {i : ℕ} {l : Loader}, Mem.SameOff userRange m l.mem →
      T l (PokuOS.loadSegments fuel data (data + ePhoff m data) n i l).2 := by
  induction n with
  | zero =>
    intro i l _
    exact hT.refl l
  | succ n ih =>
    intro i l hs
    rw [PokuOS.loadSegments, ht.ePhnum_eq hs]
    split
    · rename_i hi
      have hseg : SegmentOk (phdrAt l.mem (data + ePhoff m data + 32 * i)) := by
        rw [ht.phdrAt_eq hs hi]
        exact hok i hi
      split
      · exact ih hs
      · rename_i hload
        rw [not_not] at hload
        have hstep := hT.loadSegment fuel data l hseg hload (ht.bounds hi)
        rcases hr : PokuOS.loadSegment fuel l data (data + ePhoff m data + 32 * i) with ⟨r, l1⟩
        rw [hr] at hstep
        rcases r with _ | _ | _
        · exact hstep
        · exact hstep
        · refine hT.trans hstep (ih (hs.trans ?_))
          rw [loadSegment_mem hr]
          exact (hseg.copySegment _ hload (ht.bounds hi)).1
    · exact hT.refl l

/-- **The loader with an image in order** does only what the preorder allows. -/
theorem elfLoad {l : Loader} (hok : ImageOk l.mem data) : T l (PokuOS.elfLoad fuel l data).2.2 := by
  unfold PokuOS.elfLoad
  split
  · exact hT.refl l
  rename_i hdata
  split
  · rename_i haccepted
    obtain ⟨ht, hsegs⟩ := hok hdata haccepted
    exact hT.loadSegments ht hsegs (Mem.SameOff.refl _ _)
  · exact hT.refl l

end Loading

theorem loading_confined : Loading Confined where
  refl := .refl
  trans := .trans
  fail {l vm} halloc := by
    refine ⟨fun e he => .inl he, Mem.SameOff.refl _ _, fun hs => ?_⟩
    have hkept := hs.allocPageFrame
    rwa [halloc] at hkept
  map hva halign _ halloc := Confined.map hva halign halloc
  copy l _ _ hs hwrites := by
    refine ⟨fun e he => ?_, hs, Vm.KernelKept.refl⟩
    rcases mem_append.mp he with he | he
    · exact .inr (hwrites e he)
    · exact .inl he

/-- **An image in order is loaded into the user range.** -/
theorem Confined.elfLoad {l : Loader} (hok : ImageOk l.mem data) :
    Confined l (PokuOS.elfLoad fuel l data).2.2 :=
  loading_confined.elfLoad hok

/-! ## An image that is not in order -/

variable {e : Effect}

section AllPresentBut

variable {p : ℕ} (hp : p < 2 ^ 32) (hp' : p % pageSize = 0)
include hp hp'

end AllPresentBut

end PokuOS
