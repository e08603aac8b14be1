import LabKernel.Fs.State
import LabKernel.Lib.Transition

/-! # The disk driver and its device

`virtio.c` against a device that takes the requests of the avail ring in their order, works on
several of them and completes them in any order. Each section of `vdisk_lock` is one step, and so is
each step of the device. The ring counters are 16-bit words. History variables number the requests
as they are published and taken, and record what the device has completed.
-/

namespace LabKernel.Virtio

def virtioNum : ℕ := 8

/-- A place in the descriptor table or in a ring. -/
abbrev Index := Fin virtioNum

instance : NeZero virtioNum := ⟨by decide⟩

def vringDescFNext : U16 := 1

def vringDescFWrite : U16 := 2

/-- The addresses that a descriptor can hold: the header on the stack of the call for a buffer, the
buffer's page, and `disk.info[i].status`. -/
inductive Addr (β : Type*) where
  | null
  | header (b : β)
  | data (b : β)
  | status (i : Index)
deriving DecidableEq

structure Desc (β : Type*) where
  addr : Addr β
  len : U32
  flags : U16
  next : U16
deriving DecidableEq

/-- `struct virtio_blk_outhdr`; the reserved word is zero. -/
structure Header where
  type : U32
  sector : U64
deriving DecidableEq

/-- What `virtio_disk_rw` asks the device for. -/
structure Request (β : Type*) where
  buf : β
  write : Bool
  sector : U64
deriving DecidableEq

/-- The place of a chain's three descriptors. -/
structure Chain where
  head : Index
  data : Index
  status : Index
deriving DecidableEq

/-- Where the call of `virtio_disk_rw` for a buffer is: it sleeps on `disk.free`, or on the buffer
with its request published under a number. A call that has been woken can go on. -/
inductive Call (β : Type*) where
  | idle
  | allocating (request : Request β) (awake : Bool)
  | waiting (request : Request β) (idx : Chain) (ticket : ℕ) (awake : Bool)
deriving DecidableEq

/-- A request that the device is working on, as it has read it from the descriptors. -/
structure Work (β : Type*) where
  ticket : ℕ
  head : U16
  request : Request β
  status : Index
deriving DecidableEq

/-- `disk_t` without the queue's unused fields, the buffers' `disk` flags, the headers on the
kernel stacks, and the device. -/
structure Disk (β : Type*) where
  desc : Index → Desc β
  avail : Index → U16
  availIdx : U16
  usedId : U16
  usedElems : Index → U32
  free : Index → Bool
  usedIdx : U16
  infoB : Index → Option β
  infoStatus : Index → U8
  busy : β → Bool
  header : β → Header
  call : β → Call β
  /-- The device's own position in the avail ring. -/
  lastAvail : U16
  working : List (Work β)
  published : ℕ
  taken : ℕ
  completed : List (ℕ × Request β)

variable {β : Type*}

def init : Disk β where
  desc _ := ⟨.null, 0, 0, 0⟩
  avail _ := 0
  availIdx := 0
  usedId := 0
  usedElems _ := 0
  free _ := true
  usedIdx := 0
  infoB _ := none
  infoStatus _ := 0
  busy _ := false
  header _ := ⟨0, 0⟩
  call _ := .idle
  lastAvail := 0
  working := []
  published := 0
  taken := 0
  completed := []

namespace Disk

/-- The place of a ring that a number falls on. -/
def place (k : ℕ) : Index := Fin.ofNat virtioNum k

/-- The place in a ring that a counter stands at. -/
def ring (counter : U16) : Index := place counter.toNat

/-- `proc_wakeup(&disk.free[0])` -/
def wakeAllocating (d : Disk β) : Disk β :=
  { d with call := fun b =>
      match d.call b with
      | .allocating request _ => .allocating request true
      | call => call }

/-- `proc_wakeup(b)` -/
def wakeWaiting [DecidableEq β] (d : Disk β) (b : β) : Disk β :=
  { d with call := fun c =>
      match d.call c with
      | .waiting request idx ticket awake => .waiting request idx ticket (awake || c = b)
      | call => call }

def allocDesc (d : Disk β) : Option (Index × Disk β) :=
  ((List.finRange virtioNum).find? d.free).map fun i =>
    (i, { d with free := Function.update d.free i false })

def freeDesc (d : Disk β) (i : ℕ) : Except Fault (Disk β) :=
  if h : i < virtioNum then
    let i : Index := ⟨i, h⟩
    if d.free i then .error (.panic "virtio_disk_intr 2")
    else .ok { d with
      desc := Function.update d.desc i { d.desc i with addr := .null }
      free := Function.update d.free i true }.wakeAllocating
  else .error (.panic "virtio_disk_intr 1")

/-- `free_chain`; `free_desc` stops a chain that comes back to a free descriptor, so no more than
the first argument are freed. -/
def freeChain : ℕ → Disk β → ℕ → Except Fault (Disk β)
  | 0, _, _ => .error .hang
  | fuel + 1, d, i => do
    let d' ← d.freeDesc i
    if h : i < virtioNum then
      let desc := d'.desc ⟨i, h⟩
      if desc.flags &&& vringDescFNext ≠ 0 then freeChain fuel d' desc.next.toNat else .ok d'
    else .ok d'

/-- `alloc3_desc`, its loop unrolled. -/
def alloc3Desc (d : Disk β) : Except Fault (Option Chain × Disk β) :=
  match d.allocDesc with
  | none => .ok (none, d)
  | some (i, d) =>
    match d.allocDesc with
    | none => do
      let d ← d.freeDesc i
      return (none, d)
    | some (j, d) =>
      match d.allocDesc with
      | none => do
        let d ← d.freeDesc i
        let d ← d.freeDesc j
        return (none, d)
      | some (k, d) => .ok (some ⟨i, j, k⟩, d)

/-- What `virtio_disk_rw` does once it has its three descriptors, up to its sleep. -/
def publish [DecidableEq β] (d : Disk β) (request : Request β) (idx : Chain) : Disk β :=
  let b := request.buf
  { d with
    header := Function.update d.header b ⟨if request.write then 1 else 0, request.sector⟩
    desc := Function.update (Function.update (Function.update d.desc
      idx.head ⟨.header b, 16, vringDescFNext, BitVec.ofNat 16 idx.data⟩)
      idx.data ⟨.data b, 4096, (if request.write then 0 else vringDescFWrite) ||| vringDescFNext,
        BitVec.ofNat 16 idx.status⟩)
      idx.status ⟨.status idx.head, 1, vringDescFWrite, 0⟩
    infoStatus := Function.update d.infoStatus idx.head 0
    busy := Function.update d.busy b true
    infoB := Function.update d.infoB idx.head (some b)
    avail := Function.update d.avail (ring d.availIdx) (BitVec.ofNat 16 idx.head)
    availIdx := d.availIdx + 1
    call := Function.update d.call b (.waiting request idx d.published false)
    published := d.published + 1 }

/-- One round of the first loop of `virtio_disk_rw`. -/
def tryAlloc [DecidableEq β] (d : Disk β) (request : Request β) : Except Fault (Disk β) := do
  match ← d.alloc3Desc with
  | (none, d) => return { d with
      call := Function.update d.call request.buf (.allocating request false) }
  | (some idx, d) => return d.publish request idx

/-- One round of the second loop of `virtio_disk_rw`, and its end. -/
def tryFinish [DecidableEq β] (d : Disk β) (request : Request β) (idx : Chain) (ticket : ℕ) :
    Except Fault (Disk β) :=
  if d.busy request.buf then
    .ok { d with call := Function.update d.call request.buf (.waiting request idx ticket false) }
  else do
    let d := { d with infoB := Function.update d.infoB idx.head none }
    let d ← freeChain (virtioNum + 1) d idx.head
    return { d with call := Function.update d.call request.buf .idle }

/-- The loop of `virtio_disk_intr`, which comes round to the device's position within
`VIRTIO_NUM` steps. -/
def intrLoop [DecidableEq β] : ℕ → Disk β → Except Fault (Disk β)
  | 0, d => .ok d
  | fuel + 1, d =>
    if d.usedIdx.toNat % virtioNum = d.usedId.toNat % virtioNum then .ok d
    else if place : d.usedIdx.toNat < virtioNum then
      let id := (d.usedElems ⟨d.usedIdx.toNat, place⟩).toNat
      if h : id < virtioNum then
        if d.infoStatus ⟨id, h⟩ ≠ 0 then .error (.panic "virtio_disk_intr status")
        else
          match d.infoB ⟨id, h⟩ with
          | none => .error .wildPointer
          | some b =>
            let d := { d with busy := Function.update d.busy b false }.wakeWaiting b
            intrLoop fuel { d with
              usedIdx := BitVec.ofNat 16 ((d.usedIdx.toNat + 1) % virtioNum) }
      else .error .wildPointer
    else .error .wildPointer

def intr [DecidableEq β] (d : Disk β) : Except Fault (Disk β) := intrLoop virtioNum d

/-! ## The device -/

/-- The descriptor that a number of 16 bits names. -/
def descAt (d : Disk β) (i : U16) : Option (Desc β) :=
  if h : i.toNat < virtioNum then some (d.desc ⟨i.toNat, h⟩) else none

/-- What the device reads from a chain of descriptors, if the chain is one that it understands. -/
def fetch (d : Disk β) (head : U16) : Option (Request β × Index) := do
  let first ← d.descAt head
  let second ← d.descAt first.next
  let third ← d.descAt second.next
  match first.addr, second.addr, third.addr with
  | .header h, .data b, .status i =>
    if first.len = 16 ∧ second.len = 4096 ∧ third.len = 1 ∧ first.flags = vringDescFNext ∧
        second.flags &&& vringDescFNext ≠ 0 ∧ third.flags = vringDescFWrite ∧
        ((d.header h).type = 1 ↔ second.flags &&& vringDescFWrite = 0) then
      some (⟨b, (d.header h).type == 1, (d.header h).sector⟩, i)
    else none
  | _, _, _ => none

/-- The device takes the next entry of the avail ring. -/
def take (d : Disk β) : Option (Disk β) :=
  if d.lastAvail = d.availIdx then none
  else
    let head := d.avail (ring d.lastAvail)
    (d.fetch head).map fun (request, status) => { d with
      lastAvail := d.lastAvail + 1
      working := d.working ++ [⟨d.taken, head, request, status⟩]
      taken := d.taken + 1 }

/-- The device completes one of the requests that it works on. -/
def complete (d : Disk β) (k : ℕ) (status : U8) : Option (Disk β) :=
  d.working[k]?.map fun work => { d with
    working := d.working.eraseIdx k
    infoStatus := Function.update d.infoStatus work.status status
    usedElems := Function.update d.usedElems (ring d.usedId) (work.head.zeroExtend 32)
    usedId := d.usedId + 1
    completed := (work.ticket, work.request) :: d.completed }

end Disk

/-! ## Steps -/

/-- A call of `virtio_disk_rw` begins or goes on, the device moves, or its interrupt is handled. -/
inductive Event (β : Type*) where
  | start (b : β) (write : Bool) (blockNum : U32)
  | resume (b : β)
  | take
  | complete (k : ℕ) (status : U8)
  | intr

/-- One step, unless it is not possible now. A fault stops the system. -/
def Disk.step [DecidableEq β] (d : Disk β) : Event β → Option (Except Fault (Disk β))
  | .start b write blockNum =>
    match d.call b with
    | .idle => some (d.tryAlloc ⟨b, write, (blockNum * 8).zeroExtend 64⟩)
    | _ => none
  | .resume b =>
    match d.call b with
    | .allocating request true => some (d.tryAlloc request)
    | .waiting request idx ticket true => some (d.tryFinish request idx ticket)
    | _ => none
  | .take => d.take.map .ok
  | .complete k status => (d.complete k status).map .ok
  | .intr => some d.intr

def Step [DecidableEq β] (d : Disk β) (e : Event β) (d' : Disk β) : Prop := d.step e = some (.ok d')

/-! ## Requests in flight -/

/-- The request that a call has published and not finished, with its descriptors and its number. -/
def Call.flight : Call β → Option (Request β × Chain × ℕ)
  | .waiting request idx ticket _ => some (request, idx, ticket)
  | _ => none

def Chain.cells (idx : Chain) : Finset Index := {idx.head, idx.data, idx.status}

namespace Disk

def flight (d : Disk β) (b : β) : Option (Request β × Chain × ℕ) := (d.call b).flight

/-- The descriptors of the request for a buffer. -/
def cells (d : Disk β) (b : β) : Finset Index :=
  match d.flight b with
  | some (_, idx, _) => idx.cells
  | none => ∅

/-- `free_desc` on a descriptor in use. -/
def freed (d : Disk β) (i : Index) : Disk β :=
  { d with
    desc := Function.update d.desc i { d.desc i with addr := .null }
    free := Function.update d.free i true }.wakeAllocating

variable {d : Disk β} {b : β} {i : Index}

private theorem freeDesc_held (held : d.free i = false) : d.freeDesc i = .ok (d.freed i) := by
  simp only [freeDesc, Fin.is_lt, dite_true, Fin.eta, held, Bool.false_eq_true, if_false, freed]

@[simp] theorem wakeAllocating_flight : d.wakeAllocating.flight b = d.flight b := by
  simp only [flight, wakeAllocating]
  cases d.call b <;> rfl

@[simp] theorem wakeWaiting_flight [DecidableEq β] {c : β} : (d.wakeWaiting c).flight b = d.flight b := by
  simp only [flight, wakeWaiting]
  cases d.call b <;> rfl

@[simp] theorem freed_flight : (d.freed i).flight b = d.flight b := wakeAllocating_flight

@[simp] theorem freed_free : (d.freed i).free = Function.update d.free i true := rfl

private theorem freed_desc_flags {j : Index} : ((d.freed i).desc j).flags = (d.desc j).flags := by
  simp only [freed, wakeAllocating, Function.update_apply]
  split
  case isTrue same => rw [same]
  case isFalse => rfl

private theorem freed_desc_next {j : Index} : ((d.freed i).desc j).next = (d.desc j).next := by
  simp only [freed, wakeAllocating, Function.update_apply]
  split
  case isTrue same => rw [same]
  case isFalse => rfl

@[simp] theorem freed_desc_other {j : Index} (other : j ≠ i) : (d.freed i).desc j = d.desc j :=
  Function.update_of_ne other ..

end Disk

/-- What memory holds for a request in flight. -/
structure Formatted (d : Disk β) (b : β) (request : Request β) (idx : Chain) : Prop where
  buf : request.buf = b
  headData : idx.head ≠ idx.data
  headStatus : idx.head ≠ idx.status
  dataStatus : idx.data ≠ idx.status
  held : ∀ i ∈ idx.cells, d.free i = false
  head : d.desc idx.head = ⟨.header b, 16, vringDescFNext, BitVec.ofNat 16 idx.data⟩
  data : d.desc idx.data = ⟨.data b, 4096,
    (if request.write then 0 else vringDescFWrite) ||| vringDescFNext, BitVec.ofNat 16 idx.status⟩
  status : d.desc idx.status = ⟨.status idx.head, 1, vringDescFWrite, 0⟩
  info : d.infoB idx.head = some b
  header : d.header b = ⟨if request.write then 1 else 0, request.sector⟩

/-- A request stays formatted when its descriptors and its header are left as they are. -/
private theorem Formatted.keep {d d' : Disk β} {b : β} {request : Request β} {idx : Chain}
    (form : Formatted d b request idx) (held : ∀ i ∈ idx.cells, d'.free i = false)
    (desc : ∀ i ∈ idx.cells, d'.desc i = d.desc i) (info : d'.infoB idx.head = d.infoB idx.head)
    (header : d'.header b = d.header b) : Formatted d' b request idx :=
  { form with
    held
    head := (desc _ (by simp [Chain.cells])).trans form.head
    data := (desc _ (by simp [Chain.cells])).trans form.data
    status := (desc _ (by simp [Chain.cells])).trans form.status
    info := info.trans form.info
    header := header.trans form.header }

/-- Chains stay apart when one of them changes to cells apart from the others. -/
private theorem disjoint_cells {d d' : Disk β} {b : β}
    (apart : ∀ c e, c ≠ e → Disjoint (d.cells c) (d.cells e)) (others : ∀ c, c ≠ b → d'.cells c = d.cells c)
    (own : ∀ c, c ≠ b → Disjoint (d.cells c) (d'.cells b)) (c e : β) (other : c ≠ e) :
    Disjoint (d'.cells c) (d'.cells e) := by
  rcases eq_or_ne c b with rfl | notC
  · rw [others e other.symm]
    exact (own e other.symm).symm
  · rw [others c notC]
    rcases eq_or_ne e b with rfl | notE
    · exact own c notC
    · rw [others e notE]
      exact apart c e other

/-- The published requests that are not finished, in three queues: the avail ring, the device, and
the used ring from what `virtio_disk_intr` has handled on. -/
structure Queued (d : Disk β) (avail used : List β) (handled : ℕ) : Prop where
  availIdx : d.availIdx = BitVec.ofNat 16 d.published
  lastAvail : d.lastAvail = BitVec.ofNat 16 d.taken
  usedId : d.usedId = BitVec.ofNat 16 (handled + used.length)
  usedIdx : d.usedIdx.toNat = handled % virtioNum
  published : d.published = d.taken + avail.length
  nodup : (avail ++ d.working.map (·.request.buf) ++ used).Nodup
  busy : ∀ b, b ∈ avail ++ d.working.map (·.request.buf) ++ used ↔ d.busy b = true
  pending : ∀ j b, avail[j]? = some b → ∃ request idx,
    d.flight b = some (request, idx, d.taken + j) ∧
      d.avail (Disk.place (d.taken + j)) = BitVec.ofNat 16 idx.head
  working : ∀ w ∈ d.working, ∃ idx, d.flight w.request.buf = some (w.request, idx, w.ticket) ∧
    w.head = BitVec.ofNat 16 idx.head ∧ w.status = idx.head
  used : ∀ j b, used[j]? = some b → ∃ request idx ticket, d.flight b = some (request, idx, ticket) ∧
    d.usedElems (Disk.place (handled + j)) = BitVec.ofNat 32 idx.head ∧
      (ticket, request) ∈ d.completed
  started : ∀ w ∈ d.working, w.ticket < d.taken
  done : ∀ ticket request, (ticket, request) ∈ d.completed → ticket < d.taken

structure Inv (d : Disk β) : Prop where
  flights : ∀ b request idx ticket, d.flight b = some (request, idx, ticket) →
    Formatted d b request idx
  asks : ∀ b request awake, d.call b = .allocating request awake → request.buf = b
  apart : ∀ b c, b ≠ c → Disjoint (d.cells b) (d.cells c)
  owned : ∀ i, d.free i = false → ∃ b, i ∈ d.cells b
  queued : ∃ avail used handled, Queued d avail used handled
  finished : ∀ b request idx ticket, d.flight b = some (request, idx, ticket) →
    d.busy b = false → (ticket, request) ∈ d.completed

namespace Disk

private theorem ring_ofNat (k : ℕ) : ring (BitVec.ofNat 16 k) = place k := by
  apply Fin.ext
  simp only [ring, place, Fin.ofNat, BitVec.toNat_ofNat, virtioNum]
  omega

private theorem place_ne {j k : ℕ} (less : j < k) (near : k < j + virtioNum) : place j ≠ place k := by
  intro same
  have vals : j % virtioNum = k % virtioNum := Fin.ext_iff.mp same
  simp only [virtioNum] at near vals
  omega

private theorem cells_eq {d : Disk β} {b : β} {request : Request β} {idx : Chain} {ticket : ℕ}
    (flies : d.flight b = some (request, idx, ticket)) : d.cells b = idx.cells := by
  simp only [cells, flies]

private theorem flies_of_mem {d : Disk β} {b : β} {i : Index} (member : i ∈ d.cells b) :
    ∃ request idx ticket, d.flight b = some (request, idx, ticket) ∧ i ∈ idx.cells := by
  rw [cells] at member
  split at member
  case h_1 request idx ticket found => exact ⟨request, idx, ticket, found, member⟩
  case h_2 => cases member

end Disk

namespace Inv

variable {d : Disk β} {b : β}

private theorem formatted (inv : Inv d) {request : Request β} {idx : Chain} {ticket : ℕ}
    (flies : d.flight b = some (request, idx, ticket)) : Formatted d b request idx :=
  inv.flights b request idx ticket flies

private theorem card_cells (inv : Inv d) (flies : (d.flight b).isSome) : (d.cells b).card = 3 := by
  obtain ⟨⟨request, idx, ticket⟩, found⟩ := Option.isSome_iff_exists.mp flies
  have form := inv.formatted found
  rw [Disk.cells_eq found, Chain.cells, Finset.card_eq_three]
  exact ⟨_, _, _, form.headData, form.headStatus, form.dataStatus, rfl⟩

private theorem held_of_mem (inv : Inv d) {i : Index} (member : i ∈ d.cells b) : d.free i = false := by
  obtain ⟨request, idx, ticket, flies, within⟩ := Disk.flies_of_mem member
  exact (inv.formatted flies).held i within

/-- The descriptors of several requests fit in the table. -/
theorem card_requests [DecidableEq β] (inv : Inv d) (some : Finset β)
    (fly : ∀ b ∈ some, (d.flight b).isSome) :
    (some.biUnion d.cells).card = 3 * some.card := by
  rw [Finset.card_biUnion fun b _ c _ other => inv.apart b c other,
    Finset.sum_congr rfl fun b member => inv.card_cells (fly b member), Finset.sum_const,
    smul_eq_mul, Nat.mul_comm]

private theorem few (inv : Inv d) {list : List β} (nodup : list.Nodup)
    (fly : ∀ b ∈ list, (d.flight b).isSome) : list.length ≤ 2 := by
  classical
  have count := inv.card_requests list.toFinset fun b member => fly b (List.mem_toFinset.mp member)
  have bound := Finset.card_le_univ (list.toFinset.biUnion d.cells)
  rw [count, List.toFinset_card_of_nodup nodup, Fintype.card_fin, virtioNum] at bound
  omega

private theorem init : Inv (init : Disk β) where
  flights b request idx ticket flies := by cases flies
  asks b request awake asks := by cases asks
  apart b c other := Finset.disjoint_empty_left _
  owned i held := by cases held
  queued := ⟨[], [], 0, by
    constructor <;> simp [Virtio.init]⟩
  finished b request idx ticket flies := by cases flies

/-- The calls' sleep and the descriptors that are free do not matter. -/
theorem resleep (inv : Inv d) {desc : Index → Desc β} {call : β → Call β}
    (held : ∀ i, d.free i = false → desc i = d.desc i)
    (flight : ∀ b, (call b).flight = d.flight b)
    (asks : ∀ b request awake, call b = .allocating request awake → request.buf = b) :
    Inv { d with desc := desc, call := call } := by
  set d' : Disk β := { d with desc := desc, call := call } with def_d'
  have flies : ∀ b, d'.flight b = d.flight b := flight
  have cells : ∀ b, d'.cells b = d.cells b := fun b => by rw [Disk.cells, Disk.cells, flies]
  obtain ⟨avail, used, handled, queued⟩ := inv.queued
  refine ⟨?_, asks, ?_, ?_, ⟨avail, used, handled, ?_⟩, ?_⟩
  · intro b request idx ticket found
    rw [flies] at found
    have form := inv.formatted found
    have here : ∀ i ∈ idx.cells, desc i = d.desc i := fun i within => held i (form.held i within)
    exact form.keep form.held here rfl rfl
  · intro b c other
    rw [cells, cells]
    exact inv.apart b c other
  · intro i busy
    obtain ⟨b, member⟩ := inv.owned i busy
    exact ⟨b, by rwa [cells]⟩
  · refine { queued with pending := ?_, working := ?_, used := ?_ }
    · simpa only [flies] using queued.pending
    · simpa only [flies] using queued.working
    · simpa only [flies] using queued.used
  · intro b request idx ticket found
    rw [flies] at found
    exact inv.finished b request idx ticket found

end Inv

/-! ## Allocation -/

namespace Disk

variable {d : Disk β}

private theorem allocDesc_some {i : Index} {d' : Disk β} (result : d.allocDesc = some (i, d')) :
    d.free i = true ∧ d' = { d with free := Function.update d.free i false } := by
  obtain ⟨j, found, same⟩ := Option.map_eq_some_iff.mp result
  obtain ⟨rfl, rfl⟩ := Prod.ext_iff.mp same
  exact ⟨List.find?_some found, rfl⟩

/-- A descriptor that was taken and given back. -/
theorem update_back {free : Index → Bool} {i : Index} (was : free i = true) :
    Function.update (Function.update free i false) i true = free := by
  rw [Function.update_idem, ← was, Function.update_eq_self]

/-- What a failed allocation leaves. -/
private def Restored (d : Disk β) (desc : Index → Desc β) (call : β → Call β) : Prop :=
  (∀ i, d.free i = false → desc i = d.desc i) ∧ (∀ b, (call b).flight = d.flight b) ∧
    ∀ b request awake, call b = .allocating request awake →
      ∃ awake, d.call b = .allocating request awake

private theorem Restored.freed {desc : Index → Desc β} {call : β → Call β} {i : Index}
    (restored : Restored d desc call) (was : d.free i = true) (free : Index → Bool) :
    Restored d (({ d with desc := desc, free := free, call := call } : Disk β).freed i).desc
      (({ d with desc := desc, free := free, call := call } : Disk β).freed i).call := by
  refine ⟨fun j held => ?_, fun b => ?_, fun b request awake asks => ?_⟩
  · have other : j ≠ i := by
      rintro rfl
      rw [was] at held
      cases held
    rw [freed_desc_other other]
    exact restored.1 j held
  · exact freed_flight.trans (restored.2.1 b)
  · simp only [Disk.freed, wakeAllocating] at asks
    split at asks
    case h_1 request' awake' same =>
      cases asks
      exact restored.2.2 b _ _ same
    case h_2 => exact restored.2.2 b _ _ asks

/-- `alloc3_desc` takes three free descriptors, or none. -/
theorem alloc3Desc_cases (d : Disk β) :
    (∃ desc call, d.alloc3Desc = .ok (none, { d with desc := desc, call := call }) ∧
      (∀ i, d.free i = false → desc i = d.desc i) ∧ (∀ b, (call b).flight = d.flight b) ∧
      ∀ b request awake, call b = .allocating request awake →
        ∃ awake, d.call b = .allocating request awake) ∨
    ∃ idx : Chain, idx.head ≠ idx.data ∧ idx.head ≠ idx.status ∧ idx.data ≠ idx.status ∧
      (∀ i ∈ idx.cells, d.free i = true) ∧
      d.alloc3Desc = .ok (some idx, { d with
        free := fun i => if i ∈ idx.cells then false else d.free i }) := by
  have start : Restored d d.desc d.call :=
    ⟨fun _ _ => rfl, fun _ => rfl, fun _ _ awake asks => ⟨awake, asks⟩⟩
  unfold alloc3Desc
  split
  case h_1 => exact .inl ⟨d.desc, d.call, rfl, start⟩
  case h_2 i d₁ first =>
    obtain ⟨freeI, rfl⟩ := allocDesc_some first
    split
    case h_1 =>
      refine .inl ⟨_, _, ?_, start.freed freeI (Function.update d.free i false)⟩
      rw [freeDesc_held (Function.update_self ..)]
      simp only [Disk.freed, wakeAllocating, update_back freeI]
      rfl
    case h_2 j d₂ second =>
      obtain ⟨freeJ, rfl⟩ := allocDesc_some second
      have ij : i ≠ j := by
        rintro rfl
        simp at freeJ
      simp only [Function.update_of_ne ij.symm] at freeJ
      split
      case h_1 =>
        have back : Function.update (Function.update (Function.update (Function.update d.free
            i false) j false) i true) j true = d.free := by
          rw [Function.update_comm ij.symm, update_back freeI, update_back freeJ]
        let both := Function.update (Function.update d.free i false) j false
        refine .inl ⟨_, _, ?_, (start.freed freeI both).freed freeJ (Function.update both i true)⟩
        rw [freeDesc_held (by simp [Function.update_of_ne ij])]
        simp only [bind, Except.bind]
        rw [freeDesc_held (by simp [Function.update_of_ne ij.symm])]
        simp only [Disk.freed, wakeAllocating, back]
        rfl
      case h_2 k d₃ third =>
        obtain ⟨freeK, rfl⟩ := allocDesc_some third
        have ik : i ≠ k := by
          rintro rfl
          simp [Function.update_of_ne ij] at freeK
        have jk : j ≠ k := by
          rintro rfl
          simp at freeK
        simp only [Function.update_of_ne jk.symm, Function.update_of_ne ik.symm] at freeK
        refine .inr ⟨⟨i, j, k⟩, ij, ik, jk, ?_, ?_⟩
        · simp [Chain.cells, freeI, freeJ, freeK]
        · have same : (fun l => if l ∈ Chain.cells ⟨i, j, k⟩ then false else d.free l) =
              Function.update (Function.update (Function.update d.free i false) j false) k false := by
            funext l
            simp only [Chain.cells, Finset.mem_insert, Finset.mem_singleton,
              Function.update_apply]
            grind
          rw [same]

end Disk

namespace Queued

variable {d : Disk β} {avail used : List β} {handled : ℕ}

/-- Every request in a queue is in flight. -/
theorem flies (queued : Queued d avail used handled) {b : β}
    (member : b ∈ avail ++ d.working.map (·.request.buf) ++ used) : (d.flight b).isSome := by
  rcases List.mem_append.mp member with member | member
  · rcases List.mem_append.mp member with member | member
    · obtain ⟨j, at_j⟩ := List.getElem?_of_mem member
      obtain ⟨request, idx, found, -⟩ := queued.pending j b at_j
      exact Option.isSome_of_eq_some found
    · obtain ⟨w, within, rfl⟩ := List.mem_map.mp member
      obtain ⟨idx, found, -⟩ := queued.working w within
      exact Option.isSome_of_eq_some found
  · obtain ⟨j, at_j⟩ := List.getElem?_of_mem member
    obtain ⟨request, idx, ticket, found, -⟩ := queued.used j b at_j
    exact Option.isSome_of_eq_some found

private theorem length_le (queued : Queued d avail used handled) (inv : Inv d) :
    avail.length + d.working.length + used.length ≤ 2 := by
  have few := inv.few queued.nodup fun b => queued.flies
  simpa only [List.length_append, List.length_map] using few

private theorem not_mem (queued : Queued d avail used handled) {b : β} (rests : d.flight b = none) :
    b ∉ avail ++ d.working.map (·.request.buf) ++ used := by
  intro member
  have flies := queued.flies member
  rw [rests] at flies
  cases flies

variable [DecidableEq β] {request : Request β} {idx : Chain}

/-- A published request is the last of the avail ring. -/
private theorem publish (queued : Queued d avail used handled)
    (short : avail.length + d.working.length + used.length ≤ 2) (rests : d.flight request.buf = none) :
    Queued (d.publish request idx) (avail ++ [request.buf]) used handled := by
  have absent := queued.not_mem rests
  have mine : (d.publish request idx).flight request.buf = some (request, idx, d.published) := by
    simp [Disk.publish, Disk.flight, Call.flight]
  have still : ∀ c ∈ avail ++ d.working.map (·.request.buf) ++ used,
      (d.publish request idx).flight c = d.flight c := fun c member => by
    have other : c ≠ request.buf := fun same => absent (same ▸ member)
    simp [Disk.publish, Disk.flight, Function.update_of_ne other]
  have ring : (d.publish request idx).avail =
      Function.update d.avail (Disk.place d.published) (BitVec.ofNat 16 idx.head) := by
    simp [Disk.publish, queued.availIdx, Disk.ring_ofNat]
  have middle : avail ++ [request.buf] ++ d.working.map (·.request.buf) ++ used =
      avail ++ request.buf :: (d.working.map (·.request.buf) ++ used) := by simp
  refine ⟨?_, queued.lastAvail, queued.usedId, queued.usedIdx, ?_, ?_, ?_, ?_, ?_, ?_,
    queued.started, queued.done⟩
  · simp [Disk.publish, queued.availIdx, BitVec.ofNat_add]
  · simp [Disk.publish, queued.published, Nat.add_assoc]
  · refine middle ▸ List.nodup_middle.mpr (List.nodup_cons.mpr ?_)
    rw [← List.append_assoc]
    exact ⟨absent, queued.nodup⟩
  · intro c
    have before := queued.busy c
    rcases eq_or_ne c request.buf with rfl | other
    · simp [Disk.publish]
    · rw [show (d.publish request idx).busy c = d.busy c from Function.update_of_ne other .., ← before]
      simp [Disk.publish, other]
  · intro j c at_j
    rcases Nat.lt_or_ge j avail.length with inside | behind
    · rw [List.getElem?_append_left inside] at at_j
      obtain ⟨r, x, flies, entry⟩ := queued.pending j c at_j
      have apart : Disk.place (d.taken + j) ≠ Disk.place d.published := by
        rw [queued.published]
        exact Disk.place_ne (by omega) (by simp only [virtioNum]; omega)
      refine ⟨r, x, (still c (by simp [List.mem_of_getElem? at_j])).trans flies, ?_⟩
      rw [ring]
      exact (Function.update_of_ne apart ..).trans entry
    · rw [List.getElem?_append_right behind] at at_j
      obtain ⟨last, rfl⟩ : j - avail.length = 0 ∧ request.buf = c := by
        simpa [List.getElem?_singleton] using at_j
      obtain rfl : j = avail.length := by omega
      refine ⟨request, idx, ?_, ?_⟩
      · rw [mine, queued.published]
        rfl
      · rw [ring, queued.published]
        exact Function.update_self ..
  · intro w member
    obtain ⟨x, flies, rest⟩ := queued.working w member
    have within : w.request.buf ∈ d.working.map (·.request.buf) := List.mem_map_of_mem member
    exact ⟨x, (still _ (by simp only [List.mem_append, within, or_true, true_or])).trans flies, rest⟩
  · intro j c at_j
    obtain ⟨r, x, t, flies, rest⟩ := queued.used j c at_j
    exact ⟨r, x, t, (still c (List.mem_append_right _ (List.mem_of_getElem? at_j))).trans flies, rest⟩

end Queued

namespace Inv

variable {d : Disk β} {b : β}

/-- Held descriptors are apart from free ones. -/
theorem cells_apart (inv : Inv d) {idx : Chain} (free : ∀ i ∈ idx.cells, d.free i = true) (b : β) :
    Disjoint (d.cells b) idx.cells := by
  refine Finset.disjoint_left.mpr fun i mine other => ?_
  have held := inv.held_of_mem mine
  rw [free i other] at held
  cases held

variable [DecidableEq β]

/-- A request is published with descriptors that were free. -/
theorem publish (inv : Inv d) {request : Request β} {idx : Chain} (headData : idx.head ≠ idx.data)
    (headStatus : idx.head ≠ idx.status) (dataStatus : idx.data ≠ idx.status)
    (free : ∀ i ∈ idx.cells, d.free i = true) (rests : d.flight request.buf = none) :
    Inv (({ d with free := fun i => if i ∈ idx.cells then false else d.free i } : Disk β).publish
      request idx) := by
  obtain ⟨avail, used, handled, queued⟩ := inv.queued
  set d' := ({ d with free := fun i => if i ∈ idx.cells then false else d.free i } : Disk β).publish
    request idx with def_d'
  have ring : Queued d' (avail ++ [request.buf]) used handled :=
    Queued.publish { queued with } (queued.length_le inv) rests
  have mine : d'.flight request.buf = some (request, idx, d.published) := by
    simp [def_d', Disk.publish, Disk.flight, Call.flight]
  have others : ∀ c, c ≠ request.buf → d'.flight c = d.flight c := fun c other => by
    simp [def_d', Disk.publish, Disk.flight, Function.update_of_ne other]
  have cells : ∀ c, c ≠ request.buf → d'.cells c = d.cells c := fun c other => by
    rw [Disk.cells, others c other, Disk.cells]
  have own : d'.cells request.buf = idx.cells := Disk.cells_eq mine
  have apart := inv.cells_apart free
  refine ⟨?_, ?_, disjoint_cells inv.apart cells fun c _ => own ▸ apart c, ?_,
    ⟨avail ++ [request.buf], used, handled, ring⟩, ?_⟩
  · intro c r x t flies
    rcases eq_or_ne c request.buf with rfl | other
    · obtain ⟨rfl, rfl, rfl⟩ : request = r ∧ idx = x ∧ d.published = t := by
        simpa [mine] using flies
      constructor <;> simp_all [Disk.publish, Chain.cells, Ne.symm headData]
    · rw [others c other] at flies
      have form := inv.formatted flies
      have away : ∀ i ∈ x.cells, i ≠ idx.head ∧ i ≠ idx.data ∧ i ≠ idx.status := by
        intro i within
        have outside := Finset.disjoint_left.mp (apart c) (by rwa [Disk.cells_eq flies])
        simpa [Chain.cells] using outside
      apply form.keep
      · intro i within
        simp [def_d', Disk.publish, form.held i within]
      · intro i within
        obtain ⟨h, dt, st⟩ := away i within
        simp [def_d', Disk.publish, Function.update_of_ne h, Function.update_of_ne dt,
          Function.update_of_ne st]
      · exact Function.update_of_ne (away _ (by simp [Chain.cells])).1 ..
      · exact Function.update_of_ne other ..
  · intro c r awake asks
    rcases eq_or_ne c request.buf with rfl | other
    · simp [def_d', Disk.publish] at asks
    · exact inv.asks c r awake (by simpa [def_d', Disk.publish, Function.update_of_ne other] using asks)
  · intro i held
    rcases em (i ∈ idx.cells) with within | outside
    · exact ⟨request.buf, by rwa [own]⟩
    · obtain ⟨c, member⟩ := inv.owned i (by simpa [def_d', Disk.publish, outside] using held)
      refine ⟨c, ?_⟩
      rwa [cells c]
      rintro rfl
      simp [Disk.cells, rests] at member
  · intro c r x t flies idle
    rcases eq_or_ne c request.buf with rfl | other
    · simp [def_d', Disk.publish] at idle
    · rw [others c other] at flies
      exact inv.finished c r x t flies (by
        simpa [def_d', Disk.publish, Function.update_of_ne other] using idle)

end Inv

namespace Disk

/-- `free_desc` on all three descriptors of a chain. -/
def freedAll (d : Disk β) (idx : Chain) : Disk β :=
  ((d.freed idx.head).freed idx.data).freed idx.status

variable {d : Disk β} {idx : Chain}

private theorem toNat_ofNat (i : Index) : (BitVec.ofNat 16 i.val).toNat = i := by
  have := i.isLt
  simp only [virtioNum] at this
  simp only [BitVec.toNat_ofNat]
  omega

private theorem freeChain_next {i j : Index} {fuel : ℕ} (held : d.free i = false)
    (more : (d.desc i).flags &&& vringDescFNext ≠ 0) (next : (d.desc i).next = BitVec.ofNat 16 j) :
    freeChain (fuel + 1) d i = freeChain fuel (d.freed i) j := by
  simp only [freeChain, freeDesc_held held, bind, Except.bind, Fin.is_lt, dite_true, Fin.eta,
    freed_desc_flags, freed_desc_next, if_pos more, next, toNat_ofNat]

private theorem freeChain_last {i : Index} {fuel : ℕ} (held : d.free i = false)
    (last : (d.desc i).flags &&& vringDescFNext = 0) :
    freeChain (fuel + 1) d i = .ok (d.freed i) := by
  simp only [freeChain, freeDesc_held held, bind, Except.bind, Fin.is_lt, dite_true, Fin.eta,
    freed_desc_flags, last, ne_eq, not_true_eq_false, if_false]

/-- `free_chain` follows a chain to its end and frees each descriptor once. -/
theorem freeChain_chain (headData : idx.head ≠ idx.data) (headStatus : idx.head ≠ idx.status)
    (dataStatus : idx.data ≠ idx.status) (held : ∀ i ∈ idx.cells, d.free i = false)
    (head : (d.desc idx.head).flags &&& vringDescFNext ≠ 0 ∧
      (d.desc idx.head).next = BitVec.ofNat 16 idx.data)
    (data : (d.desc idx.data).flags &&& vringDescFNext ≠ 0 ∧
      (d.desc idx.data).next = BitVec.ofNat 16 idx.status)
    (status : (d.desc idx.status).flags &&& vringDescFNext = 0) :
    freeChain (virtioNum + 1) d idx.head = .ok (d.freedAll idx) := by
  have two : (d.freed idx.head).free idx.data = false := by
    rw [freed_free, Function.update_of_ne headData.symm]
    exact held _ (by simp [Chain.cells])
  have three : ((d.freed idx.head).freed idx.data).free idx.status = false := by
    rw [freed_free, Function.update_of_ne dataStatus.symm, freed_free,
      Function.update_of_ne headStatus.symm]
    exact held _ (by simp [Chain.cells])
  have more : ((d.freed idx.head).desc idx.data).flags &&& vringDescFNext ≠ 0 := by
    rw [freed_desc_flags]
    exact data.1
  have last : (((d.freed idx.head).freed idx.data).desc idx.status).flags &&& vringDescFNext = 0 := by
    rw [freed_desc_flags, freed_desc_flags]
    exact status
  calc freeChain (virtioNum + 1) d idx.head
      = freeChain virtioNum (d.freed idx.head) idx.data :=
        freeChain_next (held _ (by simp [Chain.cells])) head.1 head.2
    _ = freeChain (virtioNum - 1) ((d.freed idx.head).freed idx.data) idx.status :=
        freeChain_next two more (freed_desc_next.trans data.2)
    _ = .ok (d.freedAll idx) := freeChain_last three last

private theorem freedAll_free (i : Index) :
    (d.freedAll idx).free i = if i ∈ idx.cells then true else d.free i := by
  simp only [freedAll, freed_free, Chain.cells, Finset.mem_insert, Finset.mem_singleton,
    Function.update_apply]
  grind

@[simp] theorem freedAll_flight {b : β} : (d.freedAll idx).flight b = d.flight b := by
  simp only [freedAll, freed_flight]

private theorem freedAll_desc {i : Index} (outside : i ∉ idx.cells) :
    (d.freedAll idx).desc i = d.desc i := by
  simp only [Chain.cells, Finset.mem_insert, Finset.mem_singleton, not_or] at outside
  rw [freedAll, freed_desc_other outside.2.2, freed_desc_other outside.2.1,
    freed_desc_other outside.1]

private theorem freedAll_asks {b : β} {request : Request β} {awake : Bool}
    (asks : (d.freedAll idx).call b = .allocating request awake) :
    ∃ awake, d.call b = .allocating request awake := by
  simp only [freedAll, freed, wakeAllocating] at asks
  cases found : d.call b <;> simp_all

/-- The descriptors of a request are one chain, which `free_chain` frees. -/
private theorem freeChain_formatted {b : β} {request : Request β} (form : Formatted d b request idx) :
    freeChain (virtioNum + 1) { d with infoB := Function.update d.infoB idx.head none } idx.head =
      .ok (({ d with infoB := Function.update d.infoB idx.head none } : Disk β).freedAll idx) := by
  apply freeChain_chain form.headData form.headStatus form.dataStatus
  · exact form.held
  · simp [form.head, vringDescFNext]
  · refine ⟨?_, by simp [form.data]⟩
    cases write : request.write <;> simp [form.data, write, vringDescFNext, vringDescFWrite]
  · simp [form.status, vringDescFNext, vringDescFWrite]

end Disk

namespace Inv

variable [DecidableEq β] {d : Disk β} {b : β} {request : Request β} {idx : Chain} {ticket : ℕ}

/-- A call whose request is done gives its descriptors back and returns. -/
theorem finish (inv : Inv d) (flies : d.flight b = some (request, idx, ticket))
    (done : d.busy b = false) :
    ∃ d', d.tryFinish request idx ticket = .ok d' ∧ d'.call b = .idle ∧ Inv d' ∧
      ∀ c, c ≠ b → d'.flight c = d.flight c := by
  have form := inv.formatted flies
  set cleared : Disk β := { d with infoB := Function.update d.infoB idx.head none } with def_cleared
  set d' : Disk β := { cleared.freedAll idx with
    call := Function.update (cleared.freedAll idx).call b .idle } with def_d'
  have chain : Disk.freeChain (virtioNum + 1) cleared idx.head = .ok (cleared.freedAll idx) :=
    Disk.freeChain_formatted form
  have result : d.tryFinish request idx ticket = .ok d' := by
    simp only [Disk.tryFinish, form.buf, done, Bool.false_eq_true, if_false, chain, bind, Except.bind,
      pure, Except.pure, def_d', ← def_cleared]
  have mine : d'.flight b = none := by simp [def_d', Disk.flight, Call.flight]
  have others : ∀ c, c ≠ b → d'.flight c = d.flight c := fun c other => by
    have same : (cleared.freedAll idx).flight c = cleared.flight c := Disk.freedAll_flight
    simpa [def_d', Disk.flight, Function.update_of_ne other] using same
  have cells : ∀ c, c ≠ b → d'.cells c = d.cells c := fun c other => by
    rw [Disk.cells, others c other, Disk.cells]
  have own : d.cells b = idx.cells := Disk.cells_eq flies
  have free : ∀ i, d'.free i = if i ∈ idx.cells then true else d.free i := fun i =>
    Disk.freedAll_free i
  obtain ⟨avail, used, handled, queued⟩ := inv.queued
  have absent : b ∉ avail ++ d.working.map (·.request.buf) ++ used := fun member => by
    rw [(queued.busy b).mp member] at done
    cases done
  have still : ∀ c ∈ avail ++ d.working.map (·.request.buf) ++ used, d'.flight c = d.flight c :=
    fun c member => others c fun same => absent (same ▸ member)
  refine ⟨d', result, by simp [def_d'], ⟨?_, ?_, ?_, ?_, ⟨avail, used, handled, ?_⟩, ?_⟩, others⟩
  · intro c r x t found
    have other : c ≠ b := by
      rintro rfl
      rw [mine] at found
      cases found
    rw [others c other] at found
    have form' := inv.formatted found
    have outside : ∀ i ∈ x.cells, i ∉ idx.cells := fun i within => by
      have apart := inv.apart c b other
      rw [Disk.cells_eq found, own] at apart
      exact Finset.disjoint_left.mp apart within
    apply form'.keep
    · intro i within
      rw [free, if_neg (outside i within)]
      exact form'.held i within
    · exact fun i within => Disk.freedAll_desc (outside i within)
    · have other : x.head ≠ idx.head := fun same =>
        outside x.head (by simp [Chain.cells]) (by simp [same, Chain.cells])
      exact Function.update_of_ne other ..
    · rfl
  · intro c r awake asks
    rcases eq_or_ne c b with rfl | other
    · simp [def_d'] at asks
    · rw [def_d'] at asks
      simp only [Function.update_of_ne other] at asks
      obtain ⟨awake, asks⟩ := Disk.freedAll_asks asks
      exact inv.asks c r awake asks
  · apply disjoint_cells inv.apart cells
    intro c _
    rw [show d'.cells b = ∅ by rw [Disk.cells, mine]]
    exact Finset.disjoint_empty_right _
  · intro i held
    rw [free] at held
    split at held
    case isTrue => cases held
    case isFalse outside =>
      obtain ⟨c, member⟩ := inv.owned i held
      refine ⟨c, ?_⟩
      rwa [cells c]
      rintro rfl
      exact outside (own ▸ member)
  · refine { queued with pending := ?_, working := ?_, used := ?_ }
    · intro j c at_j
      rw [still c (by simp [List.mem_of_getElem? at_j])]
      exact queued.pending j c at_j
    · intro w member
      rw [still _ (by simp [show ∃ a ∈ d.working, a.request.buf = w.request.buf from ⟨w, member, rfl⟩])]
      exact queued.working w member
    · intro j c at_j
      rw [still c (List.mem_append_right _ (List.mem_of_getElem? at_j))]
      exact queued.used j c at_j
  · intro c r x t found idle
    have other : c ≠ b := by
      rintro rfl
      rw [mine] at found
      cases found
    rw [others c other] at found
    exact inv.finished c r x t found idle

end Inv

namespace Disk

variable {d : Disk β}

private theorem descAt_ofNat (i : Index) : d.descAt (BitVec.ofNat 16 i) = some (d.desc i) := by
  simp only [descAt, toNat_ofNat, Fin.is_lt, dite_true, Fin.eta]

/-- The device understands the chains that the driver formats. -/
theorem fetch_eq {b : β} {request : Request β} {idx : Chain} (form : Formatted d b request idx) :
    d.fetch (BitVec.ofNat 16 idx.head) = some (request, idx.head) := by
  obtain ⟨buf, write, sector⟩ := request
  have buf : buf = b := form.buf
  simp only [fetch, descAt_ofNat, form.head, form.data, form.status, form.header, Option.bind_eq_bind,
    Option.bind_some, buf]
  cases write <;> simp [vringDescFNext, vringDescFWrite]

end Disk

namespace Inv

variable {d : Disk β}

/-- The device takes the oldest request of the avail ring, the one that its number names. -/
theorem take (inv : Inv d) {d' : Disk β} (taken : d.take = some d') : Inv d' := by
  obtain ⟨avail, used, handled, queued⟩ := inv.queued
  have small := queued.length_le inv
  cases avail with
  | nil =>
    have same : d.lastAvail = d.availIdx := by
      rw [queued.lastAvail, queued.availIdx, queued.published]
      rfl
    simp [Disk.take, same] at taken
  | cons b avail =>
    obtain ⟨request, idx, flies, entry⟩ := queued.pending 0 b rfl
    have form := inv.formatted flies
    have more : d.lastAvail ≠ d.availIdx := by
      rw [queued.lastAvail, queued.availIdx, queued.published]
      intro same
      have values := congrArg BitVec.toNat same
      simp only [BitVec.toNat_ofNat, List.length_cons] at values small
      omega
    have head : d.avail (Disk.ring d.lastAvail) = BitVec.ofNat 16 idx.head := by
      rw [queued.lastAvail, Disk.ring_ofNat]
      exact entry
    obtain rfl : ({ d with
        lastAvail := d.lastAvail + 1
        working := d.working ++ [⟨d.taken, BitVec.ofNat 16 idx.head, request, idx.head⟩]
        taken := d.taken + 1 } : Disk β) = d' := by
      simpa [Disk.take, more, head, Disk.fetch_eq form] using taken
    have moved : (avail ++ (d.working ++ [(⟨d.taken, BitVec.ofNat 16 idx.head, request,
        idx.head⟩ : Work β)]).map (·.request.buf) ++ used).Perm
        (b :: avail ++ d.working.map (·.request.buf) ++ used) := by
      simp only [List.map_append, List.map_cons, List.map_nil, form.buf, List.cons_append,
        ← List.append_assoc]
      exact (List.perm_append_singleton ..).append_right used
    refine ⟨fun _ _ _ _ flies => { inv.formatted flies with }, inv.asks, inv.apart, inv.owned,
      ⟨avail, used, handled, ?_⟩, inv.finished⟩
    refine { queued with
      lastAvail := ?_
      published := ?_
      nodup := moved.nodup_iff.mpr queued.nodup
      busy := fun c => (moved.mem_iff).trans (queued.busy c)
      pending := fun j c at_j => ?_
      working := fun w member => ?_
      started := fun w member => ?_
      done := fun t r within => Nat.lt_succ_of_lt (queued.done t r within) }
    · rw [queued.lastAvail, BitVec.ofNat_add]
      rfl
    · simp only [queued.published, List.length_cons]
      omega
    · obtain ⟨r, x, flies, entry⟩ := queued.pending (j + 1) c at_j
      have shift : d.taken + 1 + j = d.taken + (j + 1) := by omega
      exact ⟨r, x, by rw [shift]; exact flies, by rw [shift]; exact entry⟩
    · rcases List.mem_append.mp member with old | new
      · exact queued.working w old
      · obtain rfl := List.mem_singleton.mp new
        rw [← form.buf] at flies
        exact ⟨idx, flies, rfl, rfl⟩
    · rcases List.mem_append.mp member with old | new
      · exact Nat.lt_succ_of_lt (queued.started w old)
      · obtain rfl := List.mem_singleton.mp new
        exact Nat.lt_succ_self _

/-- The device completes a request that it works on. -/
theorem complete (inv : Inv d) {k : ℕ} {status : U8} {d' : Disk β}
    (completes : d.complete k status = some d') : Inv d' := by
  obtain ⟨avail, used, handled, queued⟩ := inv.queued
  have small := queued.length_le inv
  obtain ⟨work, found, rfl⟩ := Option.map_eq_some_iff.mp completes
  have member : work ∈ d.working := List.mem_of_getElem? found
  obtain ⟨idx, flies, head, place⟩ := queued.working work member
  have moved : (avail ++ (d.working.eraseIdx k).map (·.request.buf) ++
      (used ++ [work.request.buf])).Perm (avail ++ d.working.map (·.request.buf) ++ used) := by
    obtain ⟨within, rfl⟩ := List.getElem?_eq_some_iff.mp found
    have out := (List.getElem_cons_eraseIdx_perm within).map (·.request.buf)
    rw [List.append_assoc, List.append_assoc]
    refine List.Perm.append_left avail ?_
    rw [← List.append_assoc]
    refine (List.perm_append_singleton ..).trans ?_
    exact List.Perm.append_right used out
  refine ⟨fun _ _ _ _ flies => { inv.formatted flies with }, inv.asks, inv.apart, inv.owned,
    ⟨avail, used ++ [work.request.buf], handled, ?_⟩,
    fun c r x t found idle => List.mem_cons_of_mem _ (inv.finished c r x t found idle)⟩
  refine { queued with
    usedId := ?_
    nodup := moved.nodup_iff.mpr queued.nodup
    busy := fun c => moved.mem_iff.trans (queued.busy c)
    working := fun w within => queued.working w (List.mem_of_mem_eraseIdx within)
    used := fun j c at_j => ?_
    started := fun w within => queued.started w (List.mem_of_mem_eraseIdx within)
    done := fun t r within => ?_ }
  · rw [List.length_append, ← Nat.add_assoc, BitVec.ofNat_add, ← queued.usedId]
    rfl
  · have long : 0 < d.working.length := List.length_pos_of_mem member
    have last : Disk.ring d.usedId = Disk.place (handled + used.length) := by
      rw [queued.usedId, Disk.ring_ofNat]
    rcases Nat.lt_or_ge j used.length with inside | behind
    · rw [List.getElem?_append_left inside] at at_j
      obtain ⟨r, x, t, flies, entry, done⟩ := queued.used j c at_j
      refine ⟨r, x, t, flies, ?_, List.mem_cons_of_mem _ done⟩
      have apart : Disk.place (handled + j) ≠ Disk.ring d.usedId := by
        rw [last]
        exact Disk.place_ne (by omega) (by simp only [virtioNum]; omega)
      exact (Function.update_of_ne apart ..).trans entry
    · rw [List.getElem?_append_right behind] at at_j
      obtain ⟨final, rfl⟩ : j - used.length = 0 ∧ work.request.buf = c := by
        simpa [List.getElem?_singleton] using at_j
      obtain rfl : j = used.length := by omega
      refine ⟨work.request, idx, work.ticket, flies, ?_, List.mem_cons_self⟩
      have limit := idx.head.isLt
      simp only [virtioNum] at limit
      rw [← last]
      refine (Function.update_self ..).trans ?_
      rw [head]
      apply BitVec.eq_of_toNat_eq
      simp only [BitVec.truncate_eq_setWidth, BitVec.toNat_setWidth, BitVec.toNat_ofNat]
      omega
  · rcases List.mem_cons.mp within with same | old
    · cases same
      exact queued.started work member
    · exact queued.done t r old

end Inv

/-! ## The interrupt -/

namespace Disk

variable [DecidableEq β]

/-- What a round of the loop of `virtio_disk_intr` does for the request of a buffer. -/
def handle (d : Disk β) (b : β) : Disk β :=
  { { d with busy := Function.update d.busy b false }.wakeWaiting b with
    usedIdx := BitVec.ofNat 16 ((d.usedIdx.toNat + 1) % virtioNum) }

@[simp] theorem handle_flight {d : Disk β} {b c : β} : (d.handle b).flight c = d.flight c :=
  wakeWaiting_flight

end Disk

namespace Queued

variable [DecidableEq β] {d : Disk β} {avail used : List β} {b : β} {handled : ℕ}

/-- A round of the loop takes the oldest request off the used ring. -/
theorem handle (queued : Queued d avail (b :: used) handled) :
    Queued (d.handle b) avail used (handled + 1) := by
  have split := List.nodup_middle.mp queued.nodup
  have same : avail ++ (d.handle b).working.map (·.request.buf) ++ used =
      avail ++ d.working.map (·.request.buf) ++ used := rfl
  refine { queued with
    usedId := ?_
    usedIdx := ?_
    nodup := (List.nodup_cons.mp split).2
    busy := fun c => ?_
    pending := fun j c at_j => ?_
    working := fun w member => ?_
    used := fun j c at_j => ?_ }
  · refine queued.usedId.trans ?_
    rw [List.length_cons]
    congr 1
    omega
  · have position := queued.usedIdx
    simp only [Disk.handle, BitVec.toNat_ofNat, position, virtioNum]
    omega
  · have before := queued.busy c
    have flag : (d.handle b).busy = Function.update d.busy b false := rfl
    rw [same, flag]
    rcases eq_or_ne c b with rfl | other
    · rw [Function.update_self]
      exact ⟨fun member => absurd member (List.nodup_cons.mp split).1, fun busy => by cases busy⟩
    · rw [Function.update_of_ne other, ← before]
      simp [other]
  · rw [Disk.handle_flight]
    exact queued.pending j c at_j
  · rw [Disk.handle_flight]
    exact queued.working w member
  · obtain ⟨r, x, t, flies, entry, done⟩ := queued.used (j + 1) c at_j
    have shift : handled + 1 + j = handled + (j + 1) := by omega
    exact ⟨r, x, t, by rw [Disk.handle_flight]; exact flies, by rw [shift]; exact entry, done⟩

end Queued

namespace Inv

variable [DecidableEq β] {d : Disk β} {avail used : List β} {b : β} {handled : ℕ}

private theorem handle (inv : Inv d) (queued : Queued d avail (b :: used) handled) : Inv (d.handle b) := by
  obtain ⟨request, idx, ticket, flies, -, done⟩ := queued.used 0 b rfl
  have cells : ∀ c, (d.handle b).cells c = d.cells c := fun c => by
    rw [Disk.cells, Disk.handle_flight, Disk.cells]
  refine ⟨?_, ?_, ?_, ?_, ⟨avail, used, handled + 1, queued.handle⟩, ?_⟩
  · intro c r x t found
    rw [Disk.handle_flight] at found
    exact { inv.formatted found with }
  · intro c r awake asks
    simp only [Disk.handle, Disk.wakeWaiting] at asks
    split at asks
    case h_1 => cases asks
    case h_2 => exact inv.asks c r awake asks
  · intro c e other
    rw [cells, cells]
    exact inv.apart c e other
  · intro i held
    obtain ⟨c, member⟩ := inv.owned i held
    exact ⟨c, by rwa [cells]⟩
  · intro c r x t found idle
    rw [Disk.handle_flight] at found
    rcases eq_or_ne c b with rfl | other
    · rw [flies] at found
      cases found
      exact done
    · refine inv.finished c r x t found ?_
      rw [← idle]
      exact (Function.update_of_ne other ..).symm

/-- `virtio_disk_intr` handles the completed requests in the order of the used ring, and stops only
for a status that is not zero. -/
theorem intrLoop (inv : Inv d) (queued : Queued d avail used handled) {fuel : ℕ}
    (enough : used.length ≤ fuel) :
    (∃ d', Disk.intrLoop fuel d = .ok d' ∧ Inv d' ∧ ∀ c, d'.flight c = d.flight c) ∨
      Disk.intrLoop fuel d = .error (.panic "virtio_disk_intr status") := by
  induction used generalizing d handled fuel with
  | nil =>
    refine .inl ⟨d, ?_, inv, fun _ => rfl⟩
    cases fuel with
    | zero => rfl
    | succ fuel =>
      have same : d.usedIdx.toNat % virtioNum = d.usedId.toNat % virtioNum := by
        rw [queued.usedIdx, queued.usedId]
        simp only [BitVec.toNat_ofNat, List.length_nil, virtioNum]
        omega
      rw [Disk.intrLoop, if_pos same]
  | cons b used ih =>
    have short := queued.length_le inv
    rw [List.length_cons] at short enough
    obtain ⟨request, idx, ticket, flies, entry, -⟩ := queued.used 0 b rfl
    have form := inv.formatted flies
    obtain ⟨fuel, rfl⟩ := Nat.exists_eq_succ_of_ne_zero (show fuel ≠ 0 by omega)
    have behind : d.usedIdx.toNat % virtioNum ≠ d.usedId.toNat % virtioNum := by
      rw [queued.usedIdx, queued.usedId]
      simp only [BitVec.toNat_ofNat, List.length_cons, virtioNum]
      omega
    have place : d.usedIdx.toNat < virtioNum := by
      rw [queued.usedIdx]
      exact Nat.mod_lt _ (by decide)
    have element : (d.usedElems ⟨d.usedIdx.toNat, place⟩).toNat = idx.head := by
      have here : (⟨d.usedIdx.toNat, place⟩ : Index) = Disk.place handled :=
        Fin.ext (queued.usedIdx.trans rfl)
      have limit := idx.head.isLt
      simp only [virtioNum] at limit
      rw [here, show d.usedElems (Disk.place handled) = BitVec.ofNat 32 idx.head from entry,
        BitVec.toNat_ofNat]
      omega
    rw [Disk.intrLoop, if_neg behind, dif_pos place]
    simp only [element, Fin.is_lt, dite_true, Fin.eta, form.info]
    split
    case isTrue => exact .inr rfl
    case isFalse =>
      rcases @ih _ _ (inv.handle queued) queued.handle fuel (by omega) with
        ⟨d', result, after, same⟩ | fault
      · exact .inl ⟨d', result, after, fun c => (same c).trans Disk.handle_flight⟩
      · exact .inr fault

private theorem intr (inv : Inv d) :
    (∃ d', d.intr = .ok d' ∧ Inv d' ∧ ∀ c, d'.flight c = d.flight c) ∨
      d.intr = .error (.panic "virtio_disk_intr status") := by
  obtain ⟨avail, used, handled, queued⟩ := inv.queued
  have short := queued.length_le inv
  exact inv.intrLoop queued (by simp only [virtioNum]; omega)

end Inv

/-! ## Runs -/

namespace Inv

variable [DecidableEq β] {d : Disk β}

/-- A call without a request gets its descriptors and publishes, or sleeps. -/
theorem tryAlloc (inv : Inv d) {request : Request β} (rests : d.flight request.buf = none) :
    ∃ d', d.tryAlloc request = .ok d' ∧ Inv d' ∧
      (∀ c, c ≠ request.buf → d'.flight c = d.flight c) ∧
      ∀ r x t, d'.flight request.buf = some (r, x, t) → ∀ r', (t, r') ∉ d'.completed := by
  rcases d.alloc3Desc_cases with
    ⟨desc, call, result, kept, flight, asks⟩ | ⟨idx, hd, hs, ds, free, result⟩
  · have sleeps : ∀ c, (Function.update call request.buf (.allocating request false) c).flight =
        d.flight c := fun c => by
      rcases eq_or_ne c request.buf with rfl | other
      · rw [Function.update_self, rests]
        rfl
      · rw [Function.update_of_ne other, flight]
    refine ⟨_, by rw [Disk.tryAlloc, result]; rfl, inv.resleep kept sleeps ?_, fun c _ => sleeps c, ?_⟩
    · intro c r awake at_c
      rcases eq_or_ne c request.buf with rfl | other
      · rw [Function.update_self] at at_c
        cases at_c
        rfl
      · rw [Function.update_of_ne other] at at_c
        obtain ⟨awake, asked⟩ := asks c r awake at_c
        exact inv.asks c r awake asked
    · intro r x t flies
      cases (sleeps request.buf |>.trans rests).symm.trans flies
  · refine ⟨_, by rw [Disk.tryAlloc, result]; rfl, inv.publish hd hs ds free rests,
      fun c other => ?_, ?_⟩
    · simp [Disk.flight, Disk.publish, Function.update_of_ne other]
    · intro r x t flies
      obtain ⟨-, -, rfl⟩ : request = r ∧ idx = x ∧ d.published = t := by
        simpa [Disk.flight, Disk.publish, Call.flight] using flies
      intro r' done
      obtain ⟨avail, used, handled, queued⟩ := inv.queued
      have before := queued.done d.published r' done
      rw [queued.published] at before
      omega

/-- A call that is woken before its request is done sleeps again. -/
theorem sleepsOn (inv : Inv d) {b : β} {request : Request β} {idx : Chain} {ticket : ℕ}
    (flies : d.flight b = some (request, idx, ticket)) :
    Inv { d with call := Function.update d.call b (.waiting request idx ticket false) } := by
  refine inv.resleep (fun _ _ => rfl) (fun c => ?_) fun c r awake at_c => ?_
  · rcases eq_or_ne c b with rfl | other
    · rw [Function.update_self, flies]
      rfl
    · rw [Function.update_of_ne other]
      rfl
  · rcases eq_or_ne c b with rfl | other
    · rw [Function.update_self] at at_c
      cases at_c
    · rw [Function.update_of_ne other] at at_c
      exact inv.asks c r awake at_c

end Inv

/-- A step keeps the invariant. A request that it publishes is new, and a call that returns has had
its request completed. -/
structure Steps (d d' : Disk β) : Prop where
  inv : Inv d'
  publishes : ∀ b request idx ticket, d.flight b = none →
    d'.flight b = some (request, idx, ticket) → ∀ r, (ticket, r) ∉ d'.completed
  returns : ∀ b request idx ticket, d.flight b = some (request, idx, ticket) →
    d'.call b = .idle → (ticket, request) ∈ d.completed

private theorem Steps.of_flight {d d' : Disk β} (inv : Inv d') (same : ∀ c, d'.flight c = d.flight c) :
    Steps d d' := by
  refine ⟨inv, fun b request idx ticket rests flies => ?_, fun b request idx ticket flies idle => ?_⟩
  · rw [same, rests] at flies
    cases flies
  · rw [← same, Disk.flight, idle] at flies
    cases flies

/-- Steps that only the call for one buffer takes. -/
theorem Steps.of_call {d d' : Disk β} {b : β} (inv : Inv d')
    (same : ∀ c, c ≠ b → d'.flight c = d.flight c)
    (publishes : ∀ request idx ticket, d.flight b = none →
      d'.flight b = some (request, idx, ticket) → ∀ r, (ticket, r) ∉ d'.completed)
    (returns : ∀ request idx ticket, d.flight b = some (request, idx, ticket) →
      d'.call b = .idle → (ticket, request) ∈ d.completed) : Steps d d' := by
  refine ⟨inv, fun c request idx ticket rests flies => ?_, fun c request idx ticket flies idle => ?_⟩
  · rcases eq_or_ne c b with rfl | other
    · exact publishes request idx ticket rests flies
    · rw [same c other, rests] at flies
      cases flies
  · rcases eq_or_ne c b with rfl | other
    · exact returns request idx ticket flies idle
    · rw [← same c other, Disk.flight, idle] at flies
      cases flies

variable [DecidableEq β] {d : Disk β}

/-- The step lemma of the invariant. -/
theorem Inv.step (inv : Inv d) {e : Event β} {result : Except Fault (Disk β)}
    (steps : d.step e = some result) :
    (∃ d', result = .ok d' ∧ Steps d d') ∨ result = .error (.panic "virtio_disk_intr status") := by
  have allocates : ∀ {request : Request β}, d.flight request.buf = none →
      ∃ d', d.tryAlloc request = .ok d' ∧ Steps d d' := fun rests => by
    obtain ⟨d', tried, after, others, new⟩ := inv.tryAlloc rests
    refine ⟨d', tried, .of_call after others (fun r x t _ => new r x t) ?_⟩
    intro r x t flies
    rw [rests] at flies
    cases flies
  cases e with
  | start b write blockNum =>
    rcases found : d.call b with _ | _ | _ <;> simp only [Disk.step, found, reduceCtorEq] at steps
    cases steps
    exact .inl (allocates (by simp [Disk.flight, found, Call.flight]))
  | resume b =>
    rcases found : d.call b with _ | ⟨request, _ | _⟩ | ⟨request, idx, ticket, _ | _⟩ <;>
      simp only [Disk.step, found, reduceCtorEq] at steps
    · cases steps
      obtain rfl := inv.asks b request true found
      exact .inl (allocates (by simp [Disk.flight, found, Call.flight]))
    · cases steps
      have flies : d.flight b = some (request, idx, ticket) := by rw [Disk.flight, found]; rfl
      have here : request.buf = b := (inv.formatted flies).buf
      rcases busy : d.busy b with _ | _
      · obtain ⟨d', finished, -, after, others⟩ := inv.finish flies busy
        refine .inl ⟨d', finished, .of_call after others (fun r x t rests => ?_) fun r x t same _ => ?_⟩
        · rw [rests] at flies
          cases flies
        · rw [flies] at same
          cases same
          exact inv.finished b _ _ _ flies busy
      · refine .inl ⟨_, by rw [Disk.tryFinish, here, busy, if_pos rfl], ?_⟩
        refine .of_call (b := b) (inv.sleepsOn flies) (fun c other => ?_) (fun r x t rests => ?_) ?_
        · simp [Disk.flight, Function.update_of_ne other]
        · rw [rests] at flies
          cases flies
        · simp
  | take =>
    obtain ⟨d', taken, rfl⟩ := Option.map_eq_some_iff.mp steps
    refine .inl ⟨d', rfl, .of_flight (inv.take taken) fun c => ?_⟩
    simp only [Disk.take, Option.ite_none_left_eq_some, Option.map_eq_some_iff] at taken
    obtain ⟨-, -, -, rfl⟩ := taken
    rfl
  | complete k status =>
    obtain ⟨d', completes, rfl⟩ := Option.map_eq_some_iff.mp steps
    refine .inl ⟨d', rfl, .of_flight (inv.complete completes) fun c => ?_⟩
    obtain ⟨-, -, rfl⟩ := Option.map_eq_some_iff.mp completes
    rfl
  | intr =>
    cases steps
    rcases inv.intr with ⟨d', handled, after, same⟩ | fault
    · exact .inl ⟨d', handled, .of_flight after same⟩
    · exact .inr fault

omit [DecidableEq β] in
/-- There are three descriptors to each request in flight, and the rest are free. -/
theorem Inv.count (inv : Inv d) : ∃ flying : Finset β, (∀ b, b ∈ flying ↔ (d.flight b).isSome) ∧
    (Finset.univ.filter fun i => d.free i = true).card + 3 * flying.card = virtioNum := by
  classical
  let owner : Index → Option β := fun i => if held : d.free i = false then
    some (inv.owned i held).choose else none
  let flying : Finset β := (Finset.univ : Finset Index).biUnion fun i => (owner i).toFinset
  have fly : ∀ b, b ∈ flying ↔ (d.flight b).isSome := by
    intro b
    constructor
    · intro member
      obtain ⟨i, -, mine⟩ := Finset.mem_biUnion.mp member
      simp only [owner, Option.mem_toFinset, Option.mem_def, Option.dite_none_right_eq_some,
        Option.some.injEq] at mine
      obtain ⟨held, rfl⟩ := mine
      obtain ⟨r, x, t, flies, -⟩ := Disk.flies_of_mem (inv.owned i held).choose_spec
      exact Option.isSome_of_eq_some flies
    · intro flies
      obtain ⟨⟨r, x, t⟩, found⟩ := Option.isSome_iff_exists.mp flies
      have head : x.head ∈ d.cells b := by
        rw [Disk.cells_eq found]
        simp [Chain.cells]
      have held := inv.held_of_mem head
      refine Finset.mem_biUnion.mpr ⟨x.head, Finset.mem_univ _, ?_⟩
      simp only [owner, held, dite_true, Option.mem_toFinset, Option.mem_def, Option.some.injEq]
      by_contra other
      have apart := inv.apart _ _ other
      exact Finset.disjoint_left.mp apart (inv.owned x.head held).choose_spec head
  have held : flying.biUnion d.cells = Finset.univ.filter fun i => ¬ d.free i = true := by
    ext i
    simp only [Finset.mem_biUnion, Finset.mem_filter, Finset.mem_univ, true_and, Bool.not_eq_true]
    constructor
    · rintro ⟨b, -, member⟩
      exact inv.held_of_mem member
    · intro busy
      obtain ⟨b, member⟩ := inv.owned i busy
      obtain ⟨r, x, t, flies, -⟩ := Disk.flies_of_mem member
      exact ⟨b, (fly b).mpr (Option.isSome_of_eq_some flies), member⟩
  refine ⟨flying, fly, ?_⟩
  rw [← inv.card_requests flying fun b member => (fly b).mp member, held]
  exact (Finset.card_filter_add_card_filter_not ..).trans (Fintype.card_fin _)

/-- The requests of all calls keep to their own descriptors, three each; no descriptor is freed
twice; and a call returns only when the device has completed the request that it published. -/
theorem rw_protocol {events : List (Event β)} (run : Run Step init events d) :
    (∀ b c, b ≠ c → Disjoint (d.cells b) (d.cells c)) ∧
    (∃ flying : Finset β, (∀ b, b ∈ flying ↔ (d.flight b).isSome) ∧
      (∀ b ∈ flying, (d.cells b).card = 3) ∧
      (Finset.univ.filter fun i => d.free i = true).card + 3 * flying.card = virtioNum) ∧
    (∀ d', d.alloc3Desc = .ok (none, d') → d'.free = d.free) ∧
    (∀ e fault, d.step e = some (.error fault) → fault = .panic "virtio_disk_intr status") ∧
    ∀ e d', Step d e d' →
      (∀ b request idx ticket, d.flight b = none → d'.flight b = some (request, idx, ticket) →
        ∀ r, (ticket, r) ∉ d'.completed) ∧
      ∀ b request idx ticket, d.flight b = some (request, idx, ticket) → d'.call b = .idle →
        (ticket, request) ∈ d.completed := by
  have inv : Inv d := run.invariant (fun s e s' step inv => by
    rcases inv.step step with ⟨d', same, steps⟩ | fault
    · cases same
      exact steps.inv
    · cases fault) Inv.init
  refine ⟨inv.apart, ?_, fun d' failed => ?_, fun e fault faults => ?_, fun e d' step => ?_⟩
  · obtain ⟨flying, fly, count⟩ := inv.count
    exact ⟨flying, fly, fun b member => inv.card_cells ((fly b).mp member), count⟩
  · rcases d.alloc3Desc_cases with ⟨desc, call, result, -⟩ | ⟨idx, -, -, -, -, result⟩
    · rw [failed] at result
      cases result
      rfl
    · rw [failed] at result
      cases result
  · rcases inv.step faults with ⟨d', same, -⟩ | fault
    · cases same
    · cases fault
      rfl
  · rcases inv.step step with ⟨d', same, steps⟩ | fault
    · cases same
      exact ⟨steps.publishes, steps.returns⟩
    · cases fault

/-- Two calls overlap, and the device completes the second one first. -/
theorem rw_protocol_overlap : ∃ d : Disk Bool, Run Step init [.start true true 7, .start false false 9,
      .take, .take, .complete 1 0, .intr, .resume false] d ∧
    d.call false = .idle ∧ d.completed = [(1, ⟨false, false, 72⟩)] ∧
    ∀ b c, b ≠ c → Disjoint (d.cells b) (d.cells c) := by
  obtain ⟨d, run, returned⟩ := Run.exists_of_test
    (fun (d : Disk Bool) e => (d.step e).bind Except.toOption) init
    [.start true true 7, .start false false 9, .take, .take, .complete 1 0, .intr, .resume false]
    (fun d => d.call false = .idle ∧ d.completed = [(1, ⟨false, false, 72⟩)]) (by decide +kernel)
  have steps : Run Step init _ d := run.refine (P := fun _ => True) trivial fun s a s' _ step => by
    obtain ⟨result, stepped, ok⟩ := Option.bind_eq_some_iff.mp step
    cases result with
    | error => cases ok
    | ok => cases ok; exact ⟨stepped, trivial⟩
  obtain ⟨idle, completed⟩ := of_decide_eq_true returned
  exact ⟨d, steps, idle, completed, (rw_protocol steps).1⟩

end LabKernel.Virtio
