import PokuOS.Memory
import PokuOS.Chain

/-!
# The kernel heap

The allocator of `kernel/heap.c`: a region that starts at `HEAP_VIRT_START` and ends at
`heap_brk`, cut into blocks. A block carries its size in a header word and again in a footer
word (boundary tags); the low two bits of the header are flags (`FREE`, `PREV_FREE`). Free
blocks are threaded, in address order, through a link word behind their header.

Everything is in band, so the model is at the level of memory words: the state is a byte
memory with the three static variables of the source, and each C statement is a load or a
store. Three conventions:

* pointers are numbers, `NULL` is `0`;
* traversals of the free list are `walk`s. The fuel is the number of addresses, so a walk
  that runs out of it is on a cyclic list and the C loop does not end;
* `expand_heap` consumes answers of `alloc_page_frame`, which are part of the state: any
  pattern of failures, with at most `NUM_PAGES` frames granted. A page that becomes visible
  brings the contents its frame happens to have.

Memory is total. When `map_page` cannot install a page table it leaves the page unmapped and
`expand_heap` still reports success; the first access to that page stops the machine. The
runs of this model therefore include every run of the kernel, up to the point where it stops.
-/

namespace PokuOS

/-! ## Constants -/

/-- `HEAP_VIRT_START`. -/
def heapVirtStart : ℕ := 0xD0000000

/-- `HEAP_INIT_PAGES`. -/
def heapInitPages : ℕ := 64

/-- `BLOCK_FLAG_FREE`. -/
def blockFlagFree : ℕ := 0x1

/-- `BLOCK_FLAG_PREV_FREE`. -/
def blockFlagPrevFree : ℕ := 0x2

/-- `BLOCK_SIZE_MASK`, that is `~(size_t)0x3`. -/
def blockSizeMask : ℕ := 0xFFFFFFFC

/-- `MIN_BLOCK_SIZE`. -/
def minBlockSize : ℕ := 16

/-- `sizeof(struct block_header)`, also the size of a footer. -/
def tagSize : ℕ := 4

/-- Steps after which a walk over 32-bit addresses has met a node twice. -/
def listFuel : ℕ := 2 ^ 32

/-! ## State -/

/-- The contents of a page frame. -/
abbrev Page : Type := ℕ → UInt8

/-- The answers `alloc_page_frame` will give: a failure, or a frame with some contents.
There are `NUM_PAGES` frames, so no more can be granted. -/
structure FrameSupply where
  /-- the answers, in order; when they run out every request fails -/
  answers : List (Option Page)
  /-- no more frames than the machine has -/
  bounded : answers.countP Option.isSome ≤ numPages

/-- The next answer of `alloc_page_frame`. -/
def FrameSupply.allocPageFrame : FrameSupply → Option Page × FrameSupply
  | ⟨[], h⟩ => (none, ⟨[], h⟩)
  | ⟨a :: as, h⟩ => (a, ⟨as, (List.countP_cons ▸ Nat.le_add_right _ _).trans h⟩)

/-- The allocator's state: memory and the static variables of `heap.c`. -/
structure Heap where
  /-- kernel virtual memory -/
  mem : Mem
  freeList : ℕ
  heapBrk : ℕ
  heapEnd : ℕ
  /-- the page frames `expand_heap` will get -/
  frames : FrameSupply

/-- A pointer word: `0` is `NULL`. -/
def ptr (v : ℕ) : Option ℕ := if v = 0 then none else some v

/-! ## Blocks -/

/-- `block_size`. -/
def blockSize (m : Mem) (block : ℕ) : ℕ := m.load block &&& blockSizeMask

/-- `block_is_free`. -/
def blockIsFree (m : Mem) (block : ℕ) : Bool := m.load block &&& blockFlagFree != 0

/-- `block_payload`. -/
def blockPayload (block : ℕ) : ℕ := add32 block tagSize

/-- `block_after`. -/
def blockAfter (m : Mem) (block : ℕ) : ℕ := add32 block (blockSize m block)

/-- `block_footer`. -/
def blockFooter (m : Mem) (block : ℕ) : ℕ := sub32 (add32 block (blockSize m block)) tagSize

/-- The `next` field of a `struct free_block`. -/
def nextFree (m : Mem) (block : ℕ) : Option ℕ := ptr (m.load (add32 block tagSize))

namespace Heap

/-- Write a word of memory. -/
def setWord (h : Heap) (a v : ℕ) : Heap := { h with mem := h.mem.store a v }

/-- `block_in_heap`. -/
def blockInHeap (h : Heap) (block : ℕ) : Bool :=
  decide (heapVirtStart ≤ block) && decide (add32 block tagSize ≤ h.heapEnd)

/-! ## The free list -/

/-- `insert_free`: link the block in before the first one that is not below it. -/
def insertFree (h : Heap) (block : ℕ) : Option Heap := do
  let (prev, curr) ←
    walk (nextFree h.mem) (fun curr => !decide (curr < block)) listFuel none (ptr h.freeList)
  let h := h.setWord (add32 block tagSize) (curr.getD 0)
  match prev with
  | some prev => return h.setWord (add32 prev tagSize) block
  | none => return { h with freeList := block }

/-- `remove_free`: unlink the block; nothing happens when it is not in the list. -/
def removeFree (h : Heap) (block : ℕ) : Option Heap := do
  let (prev, curr) ←
    walk (nextFree h.mem) (fun curr => curr == block) listFuel none (ptr h.freeList)
  match curr, prev with
  | none, _ => return h
  | some curr, some prev => return h.setWord (add32 prev tagSize) (h.mem.load (add32 curr tagSize))
  | some curr, none => return { h with freeList := h.mem.load (add32 curr tagSize) }

/-- The search loop of `kmalloc`: the first free block of at least `totalSize` bytes. -/
def findFit (h : Heap) (totalSize : ℕ) : Option (Option ℕ) := do
  let (_, fb) ←
    walk (nextFree h.mem) (fun fb => decide (totalSize ≤ blockSize h.mem fb)) listFuel none
      (ptr h.freeList)
  return fb

/-! ## Growing -/

/-- `expand_heap`: back one page. -/
def expandHeap (h : Heap) (vaddr : ℕ) : Bool × Heap :=
  match h.frames.allocPageFrame with
  | (none, frames) => (false, { h with frames := frames })
  | (some page, frames) =>
    (true, { h with mem := h.mem.blit vaddr pageSize page, frames := frames })

/-- The loop of `grow_heap`: back `n` pages from page `i` behind `heap_brk` on, giving up at
the first failure. Pages backed before it stay backed. -/
def expandPages (h : Heap) (i : ℕ) : ℕ → Bool × Heap
  | 0 => (true, h)
  | n + 1 =>
    match h.expandHeap (add32 h.heapBrk (i * pageSize)) with
    | (false, h) => (false, h)
    | (true, h) => expandPages h (i + 1) n

/-- The first half of `grow_heap`'s ending: the last block is free and swallows the new
pages. -/
def growMerge (h : Heap) (prev prevSize pages : ℕ) : Option Heap := do
  let h ← h.removeFree prev
  let h := h.setWord prev (add32 prevSize (pages * pageSize) ||| blockFlagFree |||
    (h.mem.load prev &&& blockFlagPrevFree))
  let brk := add32 h.heapBrk (pages * pageSize)
  let h := { h with heapBrk := brk, heapEnd := brk }
  let h := h.setWord (blockFooter h.mem prev) (blockSize h.mem prev)
  let h := h.setWord (add32 prev tagSize) 0
  h.insertFree prev

/-- The second half: the new pages become a block of their own. -/
def growNew (h : Heap) (pages : ℕ) : Option Heap := do
  let newblock := h.heapBrk
  let h := h.setWord newblock (pages * pageSize ||| blockFlagFree)
  let h := h.setWord (blockFooter h.mem newblock) (pages * pageSize)
  let h := h.setWord (add32 newblock tagSize) 0
  let brk := add32 h.heapBrk (pages * pageSize)
  let h := { h with heapBrk := brk, heapEnd := brk }
  h.insertFree newblock

/-- `grow_heap`; the flag tells whether it returned `0`. -/
def growHeap (h : Heap) (needBytes : ℕ) : Option (Bool × Heap) :=
  if needBytes = 0 then some (false, h)
  else if 0xFE000000 ≤ h.heapBrk then some (false, h)
  else
    let pages := add32 needBytes (pageSize - 1) / pageSize
    match h.expandPages 0 pages with
    | (false, h) => some (false, h)
    | (true, h) =>
      let prevSize := h.mem.load (sub32 h.heapBrk tagSize)
      let prev := sub32 h.heapBrk prevSize
      if heapVirtStart < h.heapBrk ∧ h.blockInHeap prev ∧ add32 prev prevSize = h.heapBrk ∧
          blockIsFree h.mem prev then
        (h.growMerge prev prevSize pages).map (true, ·)
      else
        (h.growNew pages).map (true, ·)

/-! ## `kmalloc` -/

/-- The tags of the free block cut off at `split`. -/
def markSplit (h : Heap) (split remaining : ℕ) : Heap :=
  let h := h.setWord split (remaining ||| blockFlagFree)
  let afterSplit := blockAfter h.mem split
  let h := if h.blockInHeap afterSplit then
      h.setWord afterSplit (h.mem.load afterSplit ||| blockFlagPrevFree) else h
  h.setWord (blockFooter h.mem split) remaining

/-- The block is larger than needed by `remaining`: the rest becomes a free block. -/
def splitBlock (h : Heap) (block totalSize remaining : ℕ) : Option Heap := do
  let split := add32 block totalSize
  let h ← (h.markSplit split remaining).insertFree split
  return h.setWord block (totalSize ||| (h.mem.load block &&& blockFlagPrevFree))

/-- The block is taken: header, footer, and the flag in the block after it. -/
def markUsed (h : Heap) (block : ℕ) : Heap :=
  let h := h.setWord block (h.mem.load block &&& 0xFFFFFFFE)
  let h := h.setWord (blockFooter h.mem block) (blockSize h.mem block)
  let next := blockAfter h.mem block
  if h.blockInHeap next then h.setWord next (h.mem.load next &&& 0xFFFFFFFD) else h

/-- The last part of `kmalloc`: take `block` off the free list, cut off what is too much, and
mark it allocated. Returns the payload pointer. -/
def carve (h : Heap) (block totalSize : ℕ) : Option (ℕ × Heap) := do
  let h ← h.removeFree block
  let remaining := sub32 (blockSize h.mem block) totalSize
  let h ← (if minBlockSize ≤ remaining then h.splitBlock block totalSize remaining else some h)
  return (blockPayload block, h.markUsed block)

/-- The block size `kmalloc` looks for: the request rounded up to words, plus both tags, and
at least `MIN_BLOCK_SIZE`. -/
def totalSize (size : ℕ) : ℕ :=
  max (add32 (add32 (add32 size 3 &&& 0xFFFFFFFC) tagSize) tagSize) minBlockSize

/-- `kmalloc`. -/
def kmalloc (h : Heap) (size : ℕ) : Option (ℕ × Heap) :=
  if size = 0 then some (0, h)
  else do
    match ← h.findFit (totalSize size) with
    | some fb => h.carve fb (totalSize size)
    | none =>
      let (ok, h) ← h.growHeap (totalSize size)
      if ok then
        match ← h.findFit (totalSize size) with
        | some fb => h.carve fb (totalSize size)
        | none => return (0, h)
      else return (0, h)

/-! ## `kfree` -/

/-- The free block before `block`, when there is one, swallows it. Returns the block that
stands for both. -/
def mergeLeft (h : Heap) (block : ℕ) : Option (ℕ × Heap) :=
  if h.mem.load block &&& blockFlagPrevFree = 0 then some (block, h)
  else
    let prevSize := h.mem.load (sub32 block tagSize)
    let prev := sub32 block prevSize
    if h.blockInHeap prev ∧ add32 prev prevSize = block then do
      let h ← h.removeFree prev
      return (prev, h.setWord prev (add32 prevSize (blockSize h.mem block) ||| blockFlagFree |||
        (h.mem.load prev &&& blockFlagPrevFree)))
    else some (block, h)

/-- `block` swallows the block after it when that one is free. -/
def mergeRight (h : Heap) (block : ℕ) : Option Heap :=
  let next := blockAfter h.mem block
  if h.blockInHeap next ∧ blockIsFree h.mem next then do
    let h ← h.removeFree next
    return h.setWord block (add32 (blockSize h.mem block) (blockSize h.mem next) |||
      blockFlagFree ||| (h.mem.load block &&& blockFlagPrevFree))
  else some h

/-- The block is given back: the flag in the block after it, header, footer and link. -/
def markFree (h : Heap) (block : ℕ) : Heap :=
  let next := blockAfter h.mem block
  let h := if h.blockInHeap next then
      h.setWord next (h.mem.load next ||| blockFlagPrevFree) else h
  let h := h.setWord block (h.mem.load block ||| blockFlagFree)
  let h := h.setWord (blockFooter h.mem block) (blockSize h.mem block)
  h.setWord (add32 block tagSize) 0

/-- `kfree`. -/
def kfree (h : Heap) (ptr : ℕ) : Option Heap :=
  if ptr = 0 then some h
  else
    let block := sub32 ptr tagSize
    if !h.blockInHeap block || blockSize h.mem block == 0 then some h
    else do
      let (block, h) ← h.mergeLeft block
      let h ← h.mergeRight block
      (h.markFree block).insertFree block

/-! ## `heap_init` -/

/-- The loop of `heap_init`: unlike `grow_heap` it does not look at the results. -/
def initPages (h : Heap) (i : ℕ) : ℕ → Heap
  | 0 => h
  | n + 1 => initPages (h.expandHeap (add32 h.heapBrk (i * pageSize))).2 (i + 1) n

/-- `heap_init`, on whatever memory the machine booted with. -/
def heapInit (mem : Mem) (frames : FrameSupply) : Heap :=
  let h : Heap := ⟨mem, 0, heapVirtStart, heapVirtStart, frames⟩
  let h := h.initPages 0 heapInitPages
  let h := { h with freeList := heapVirtStart }
  let h := h.setWord heapVirtStart (heapInitPages * pageSize ||| blockFlagFree)
  let h := h.setWord (add32 heapVirtStart tagSize) 0
  let h := h.setWord (blockFooter h.mem heapVirtStart) (heapInitPages * pageSize)
  let brk := add32 h.heapBrk (heapInitPages * pageSize)
  { h with heapBrk := brk, heapEnd := brk }

end Heap

end PokuOS
