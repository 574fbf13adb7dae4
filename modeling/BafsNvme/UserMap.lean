import BafsNvme.NodeList

/-! `struct map` of `kernel/nvme/map.c`: pages of a user buffer, pinned and mapped for DMA. The
kernel's answers are inputs, and a log keeps what it was asked to do. -/

namespace BafsNvme

/-- `struct map`. `release` says whether the callback is set, `data` is the page array, and
`addrs` goes on behind the `n_addrs` entries with whatever memory holds there. -/
structure UserMap (T : Type) where
  owner : T
  vaddr : BitVec 64
  pageSize : Nat
  release : Bool
  nAddrs : Nat
  data : Option (List Nat)
  addrs : Nat → BitVec 64

structure PageLog where
  pinned : List Nat
  put : List Nat
  mapped : List (BitVec 64)
  unmapped : List (BitVec 64)

/-- What the kernel answers while one buffer is mapped: whether the two allocations succeed,
the result of `get_user_pages` with the pages it stores, and for each page what
`dma_map_page` and `dma_mapping_error` return. -/
structure PageEnv where
  descriptor : Bool
  array : Bool
  getUserPages : Int
  page : Nat → Nat
  dmaMapPage : Nat → BitVec 64
  dmaMappingError : Nat → Int
  behind : Nat → BitVec 64

def EINVAL : Int := 22

def ENOMEM : Int := 12

variable {T : Type}

/-- `none` is `ERR_PTR(-ENOMEM)`. -/
def createDescriptor (env : PageEnv) (current : T) (vaddr : BitVec 64) (nPages : Nat) :
    Option (UserMap T) :=
  if env.descriptor then
    some
      { owner := current
        vaddr := vaddr
        pageSize := 0
        data := none
        release := false
        nAddrs := nPages
        addrs := fun k => if k < nPages then 0 else env.behind k }
  else none

def releaseUserPages (m : UserMap T) (log : PageLog) : PageLog :=
  { log with
    unmapped := log.unmapped ++ (List.range m.nAddrs).map m.addrs
    put := log.put ++ (m.data.getD []).take m.nAddrs }

def unmapAndReleaseMap (m : UserMap T) (log : PageLog) : PageLog :=
  if m.release ∧ m.data ≠ none then releaseUserPages m log else log

/-- The loop of `map_user_pages` over the pages from `i` on. -/
def mapPagesFrom (env : PageEnv) (m : UserMap T) (log : PageLog) (i : Nat) :
    Nat → Int × UserMap T × PageLog
  | 0 => (0, m, log)
  | rest + 1 =>
      let m := { m with addrs := Function.update m.addrs i (env.dmaMapPage i) }
      if env.dmaMappingError i ≠ 0 then
        (env.dmaMappingError i, { m with addrs := Function.update m.addrs i 0 }, log)
      else
        mapPagesFrom env m { log with mapped := log.mapped ++ [env.dmaMapPage i] } (i + 1) rest

def mapUserPages (env : PageEnv) (m : UserMap T) (log : PageLog) : Int × UserMap T × PageLog :=
  if env.array = false then (-ENOMEM, m, log)
  else if env.getUserPages ≤ 0 then (env.getUserPages, m, log)
  else
    let count := env.getUserPages.toNat
    let ps := (List.range count).map env.page
    let log := { log with pinned := log.pinned ++ ps }
    let m := { m with nAddrs := count, pageSize := 4096, data := some ps, release := true }
    mapPagesFrom env m log 0 count

def mapUserspace (env : PageEnv) (current : T) (vaddr : BitVec 64) (nPages : Nat) (log : PageLog) :
    Except Int (UserMap T) × PageLog :=
  if nPages < 1 then (.error (-EINVAL), log)
  else
    match createDescriptor env current (vaddr &&& PAGE_MASK) nPages with
    | none => (.error (-ENOMEM), log)
    | some m =>
        let (err, m, log) := mapUserPages env { m with pageSize := 4096 } log
        if err ≠ 0 then (.error err, unmapAndReleaseMap m log) else (.ok m, log)

end BafsNvme
