import BafsNvme.QueuePairs
import BafsNvme.UserMap

/-! The host I/O buffers of `kernel/nvme/admin.c`: `create_host_io_buf`, `delete_host_io_buf` and
the loop of `clear_host_io_list`. -/

namespace BafsNvme

/-- `struct iobuf`. `prpListPhys` names the DMA area. `prpListDmaAddr` idealises the source, which
never sets the pointer of that name: it is taken to point to a word of the buffer's own, and the
struct, of which `kcalloc` gets the size of a pointer, to be allocated whole. -/
structure Iobuf (T : Type) where
  map : UserMap T
  virtAddr : BitVec 64
  pageSize : BitVec 64
  pagesPerEntry : BitVec 64
  numEntries : BitVec 64
  prpListPhys : Nat
  prpListDmaAddr : BitVec 64

/-- `host_io_list`, the buffers by the number of their block (a block is never handed out
twice), the blocks given back, the words of the PRP areas, and the page calls. -/
structure HostBuffers (T : Type) where
  list : ListHeap Unit Nat
  iobuf : Nat → Iobuf T
  blocks : Nat
  kfreed : List Nat
  prp : Nat → Nat → BitVec 64
  pages : PageLog

namespace Iobuf

variable {T : Type}

def fields (io : Iobuf T) : IobufFields T := ⟨io.map.owner, io.virtAddr⟩

/-- `num_entries*PAGE_SIZE`, the size of the PRP area. -/
def prpAllocSize (io : Iobuf T) : BitVec 64 := io.numEntries * 4096#64

/-- `num_entries*pages_per_entry*page_size`, the size it is given back with. -/
def prpFreeSize (io : Iobuf T) : BitVec 64 := io.numEntries * io.pagesPerEntry * io.pageSize

end Iobuf

/-- The stores for entry `i`: its first address goes to the last word of list page `i`, the
others from word 0 on. -/
def prpEntry (addrs : Nat → BitVec 64) (pagesPerEntry : Nat) (words : Nat → BitVec 64) (i : Nat) :
    Nat → BitVec 64 :=
  let curEntry := i * (4096 / 8)
  let words :=
    Function.update words (curEntry + (4096 / 8 - 1)) (addrs (i * pagesPerEntry % 2 ^ 64))
  (List.range' 1 (pagesPerEntry - 1)).foldl (fun words j =>
    Function.update words (curEntry + (j - 1)) (addrs ((i * pagesPerEntry + j) % 2 ^ 64))) words

def prpLists (addrs : Nat → BitVec 64) (pagesPerEntry numEntries : Nat) (words : Nat → BitVec 64) :
    Nat → BitVec 64 :=
  (List.range numEntries).foldl (prpEntry addrs pagesPerEntry) words

namespace HostBuffers

variable {T : Type}

def pageCount (pageSize pagesPerEntry numEntries : BitVec 64) : Nat :=
  (pageSize * pagesPerEntry * numEntries / 4096#64).toNat

/-- The result is the new buffer or the error of the mapping. `none` is a call that does not
return: its 32-bit counters never reach a bound of 2^32 or more. -/
def createHostIoBuf (s : HostBuffers T) (dma : DmaLog) (current : T) (env : PageEnv)
    (pageSize pagesPerEntry numEntries vaddr : BitVec 64) (prpAddr : BitVec 64) :
    Option (Except Int Nat × HostBuffers T × DmaLog) :=
  match mapUserspace env current vaddr (pageCount pageSize pagesPerEntry numEntries) s.pages with
  | (.error err, pages) => some (.error err, { s with pages := pages }, dma)
  | (.ok m, pages) =>
      if numEntries.toNat ≥ 2 ^ 32 ∨ pagesPerEntry.toNat ≥ 2 ^ 32 then none
      else
        let io := s.blocks
        let buf : Iobuf T :=
          { map := m
            pageSize := pageSize
            pagesPerEntry := pagesPerEntry
            numEntries := numEntries
            virtAddr := m.vaddr
            prpListPhys := dma.next
            prpListDmaAddr := prpAddr }
        let words := prpLists m.addrs pagesPerEntry.toNat numEntries.toNat (s.prp dma.next)
        (s.list.listInsert () (.node io)).map fun list =>
          (.ok io,
            { s with
              list := list
              iobuf := Function.update s.iobuf io buf
              blocks := s.blocks + 1
              prp := Function.update s.prp dma.next words
              pages := pages },
            dma.alloc buf.prpAllocSize.toNat prpAddr)

def releaseIobuf (s : HostBuffers T) (dma : DmaLog) (io : Nat) : HostBuffers T × DmaLog :=
  let buf := s.iobuf io
  ({ s with pages := unmapAndReleaseMap buf.map s.pages, kfreed := s.kfreed ++ [io] },
    dma.free buf.prpFreeSize.toNat buf.prpListPhys buf.prpListDmaAddr)

def findIobuf (s : HostBuffers T) [DecidableEq T] (current : T) (vaddr : BitVec 64) :
    Option (Option Nat) :=
  s.list.iobufFind (fun io => (s.iobuf io).fields) current (s.blocks + 1) () vaddr

/-- `none` is a buffer that is not found: `list_remove` reads through the NULL result. -/
def deleteHostIoBuf [DecidableEq T] (s : HostBuffers T) (dma : DmaLog) (current : T)
    (vaddr : BitVec 64) : Option (HostBuffers T × DmaLog) :=
  (s.findIobuf current vaddr).bind fun found =>
    found.bind fun io =>
      (s.list.listRemove (some (.node io))).map fun list =>
        { s with list := list }.releaseIobuf dma io

/-- One round of the loop of `clear_host_io_list`, which leaves the buffer in the list. `none`
is a buffer that was given back before. -/
def clearHostIoRound (s : HostBuffers T) (dma : DmaLog) : Option (HostBuffers T × DmaLog) :=
  match s.list.listNext (.head ()) with
  | some (.node io) => if io ∈ s.kfreed then none else some (s.releaseIobuf dma io)
  | _ => none

end HostBuffers

end BafsNvme
