import PokuOS.Paging

/-!
# The ELF loader

`kernel/elf.c`. The loader runs in the address space it fills: `Loader` is the memory as that
address space shows it, the page tables, and a log of what was mapped and written. The log is
there to be talked about; nothing reads it.

Headers are read where the loop reads them, in memory as the writes before have left it: a
header is read again between the two writes of its segment.
The loop over pages takes fuel because it need not end: an end address above `0xFFFFF000` is
never reached, as the page after the last one is page 0.
-/

namespace PokuOS

/-! ## Memory as a pointer sees it -/

namespace Mem

/-- The byte at a 32-bit address. -/
def byteAt (m : Mem) (a : ℕ) : ℕ := (m (a % 2 ^ 32)).toNat

/-- A `uint16_t`. -/
def halfAt (m : Mem) (a : ℕ) : ℕ := m.byteAt a + 256 * m.byteAt (a + 1)

/-- A `uint32_t`. -/
def wordAt (m : Mem) (a : ℕ) : ℕ := m.halfAt a + 65536 * m.halfAt (a + 2)

/-- `memcpy`, byte by byte. -/
def memcpy : ℕ → Mem → ℕ → ℕ → Mem
  | 0, m, _, _ => m
  | n + 1, m, dst, src =>
    memcpy n (Function.update m (dst % 2 ^ 32) (m (src % 2 ^ 32))) (dst + 1) (src + 1)

/-- `memset`, byte by byte. -/
def memset : ℕ → Mem → ℕ → UInt8 → Mem
  | 0, m, _, _ => m
  | n + 1, m, dst, c => memset n (Function.update m (dst % 2 ^ 32) c) (dst + 1) c

end Mem

/-! ## Headers -/

/-- `PT_LOAD`. -/
def ptLoad : ℕ := 1

/-- `Elf32_Phdr`, the fields that are read. -/
structure Phdr where
  pType : ℕ
  pOffset : ℕ
  pVaddr : ℕ
  pFilesz : ℕ
  pMemsz : ℕ
  deriving DecidableEq

/-- The program header at an address. -/
def phdrAt (m : Mem) (a : ℕ) : Phdr where
  pType := m.wordAt a
  pOffset := m.wordAt (a + 4)
  pVaddr := m.wordAt (a + 8)
  pFilesz := m.wordAt (a + 16)
  pMemsz := m.wordAt (a + 20)

/-- `ehdr->e_entry`. -/
def eEntry (m : Mem) (data : ℕ) : ℕ := m.wordAt (data + 24)

/-- `ehdr->e_phoff`. -/
def ePhoff (m : Mem) (data : ℕ) : ℕ := m.wordAt (data + 28)

/-- `ehdr->e_phnum`. -/
def ePhnum (m : Mem) (data : ℕ) : ℕ := m.halfAt (data + 44)

/-- The checks before the loop: magic, class, byte order, number of headers. -/
def headerAccepted (m : Mem) (data : ℕ) : Bool :=
  m.byteAt data == 0x7F && m.byteAt (data + 1) == 0x45 && m.byteAt (data + 2) == 0x4C &&
    m.byteAt (data + 3) == 0x46 && m.byteAt (data + 4) == 1 && m.byteAt (data + 5) == 1 &&
    ePhnum m data != 0

namespace Phdr

/-- `va_start`. -/
def vaStart (h : Phdr) : ℕ := h.pVaddr / pageSize * pageSize

/-- `va_end`. -/
def vaEnd (h : Phdr) : ℕ := add32 h.pVaddr h.pMemsz

end Phdr

/-! ## Effects -/

/-- What the loader does to the address space. -/
inductive Effect where
  /-- `map_page` of the page at an address -/
  | map (vaddr : ℕ)
  /-- `memcpy` or `memset` to an address -/
  | write (vaddr n : ℕ)
  deriving DecidableEq

/-- The addresses an effect is about. -/
def Effect.addresses : Effect → Set ℕ
  | map vaddr => {a | vaddr ≤ a ∧ a < vaddr + pageSize}
  | write vaddr n => {a | ∃ k < n, a = (vaddr + k) % 2 ^ 32}

/-- The user part of the address space. -/
def userRange : Set ℕ := {a | 0x00400000 ≤ a ∧ a < 0xC0000000}

/-- `memcpy` of the segment whose header is at `a`. -/
def copyFile (m : Mem) (data a : ℕ) : Mem :=
  let h := phdrAt m a
  m.memcpy h.pFilesz h.pVaddr (data + h.pOffset)

/-- The memory after a segment was copied and the rest of it cleared. The header is read again
after the copy. -/
def copySegment (m : Mem) (data a : ℕ) : Mem :=
  let m := copyFile m data a
  let h := phdrAt m a
  if h.pFilesz < h.pMemsz then
    m.memset (h.pMemsz - h.pFilesz) (h.pVaddr + h.pFilesz) 0
  else m

/-- What `copySegment` writes, the last first. -/
def segmentWrites (m : Mem) (data a : ℕ) : List Effect :=
  let h := phdrAt (copyFile m data a) a
  (if h.pFilesz < h.pMemsz then
    [.write (h.pVaddr + h.pFilesz) (h.pMemsz - h.pFilesz)] else []) ++
    [.write (phdrAt m a).pVaddr (phdrAt m a).pFilesz]

/-! ## The loader -/

/-- The state of the loader. -/
structure Loader where
  /-- frames and page tables -/
  vm : Vm
  /-- memory -/
  mem : Mem
  /-- what was done, the last first -/
  log : List Effect

/-- The loop over the pages of a segment. `none` when the fuel runs out, `false` when there is
no frame left. -/
def loadPages : ℕ → Loader → ℕ → ℕ → Option Bool × Loader
  | 0, l, _, _ => (none, l)
  | fuel + 1, l, va, vaEnd =>
    if va < vaEnd then
      if l.vm.pagePresent va then loadPages fuel l (add32 va pageSize) vaEnd
      else
        match l.vm.allocPageFrame with
        | (none, vm) => (some false, { l with vm := vm })
        | (some paddr, vm) =>
          loadPages fuel { l with vm := vm.mapPage va paddr true, log := .map va :: l.log }
            (add32 va pageSize) vaEnd
    else (some true, l)

/-- A `PT_LOAD` segment, with its header at `a`. -/
def loadSegment (fuel : ℕ) (l : Loader) (data a : ℕ) : Option Bool × Loader :=
  match loadPages fuel l (phdrAt l.mem a).vaStart (phdrAt l.mem a).vaEnd with
  | (some true, l) =>
    (some true,
      { l with mem := copySegment l.mem data a, log := segmentWrites l.mem data a ++ l.log })
  | r => r

/-- The loop over program headers, from header `i` on. The first argument bounds the number of
headers, of which there are at most 65535. -/
def loadSegments (fuel data phdr : ℕ) : ℕ → ℕ → Loader → Option ℤ × Loader
  | 0, _, l => (some 0, l)
  | n + 1, i, l =>
    if i < ePhnum l.mem data then
      if (phdrAt l.mem (phdr + 32 * i)).pType ≠ ptLoad then loadSegments fuel data phdr n (i + 1) l
      else
        match loadSegment fuel l data (phdr + 32 * i) with
        | (some true, l) => loadSegments fuel data phdr n (i + 1) l
        | (some false, l) => (some (-1), l)
        | (none, l) => (none, l)
    else (some 0, l)

/-- Enough fuel for every loop over pages that ends. -/
def loaderFuel : ℕ := 2 ^ 20 + 1

/-- `elf_load`: its result (`none` when the fuel runs out), `*entry` if it was set, and the state
after it. -/
def elfLoad (fuel : ℕ) (l : Loader) (data : ℕ) : Option ℤ × Option ℕ × Loader :=
  if data = 0 then (some (-1), none, l)
  else if headerAccepted l.mem data then
    let (r, l') := loadSegments fuel data (data + ePhoff l.mem data) 65536 0 l
    (r, some (eEntry l.mem data), l')
  else (some (-1), none, l)

end PokuOS
