import MicroOs.Library.LinkedRing
import MicroOs.Library.Placement
import MicroOs.Library.Run
import MicroOs.Library.Threaded

/-! # The transfer schedule of the host controller

The controller walks four top queues one after another. The transfer units of a queue hang below it: `vert_lp` of the
top queue leads to the unit enqueued last, `horiz_lp` of each unit to the one before, and that of the oldest unit to
the next top queue. Units are enqueued in front and may be dequeued anywhere; `prev_qh` leads back.

A link pointer is an address with flags in its lower bits. The address behind a terminated link is 0, where no queue
head is; what is read there may be anything.
-/

namespace MicroOs.Usb

open Function List

variable {former later : List (BitVec 32)}

def uhciLpAddrMask : BitVec 32 := 0xfffffff0#32
def uhciLpQh : BitVec 32 := 2#32
def uhciLpTerminate : BitVec 32 := 1#32

structure QueueHead where
  horizLp : BitVec 32
  vertLp : BitVec 32
  prevQh : BitVec 32
  isTopQueue : BitVec 8

/-- What memory holds behind each address that is used as a queue head. -/
abbrev Heads := BitVec 32 → QueueHead

namespace Heads

variable (heads : Heads) (a b value : BitVec 32)

def setHoriz : Heads := update heads a { heads a with horizLp := value }

def setVert : Heads := update heads a { heads a with vertLp := value }

def setPrev : Heads := update heads a { heads a with prevQh := value }

@[simp] theorem horizLp_setHoriz : (heads.setHoriz a value b).horizLp = if b = a then value else (heads b).horizLp := by
  by_cases same : b = a <;> simp [setHoriz, same]

@[simp] theorem vertLp_setHoriz : (heads.setHoriz a value b).vertLp = (heads b).vertLp := by
  by_cases same : b = a <;> simp [setHoriz, same]

@[simp] theorem prevQh_setHoriz : (heads.setHoriz a value b).prevQh = (heads b).prevQh := by
  by_cases same : b = a <;> simp [setHoriz, same]

@[simp] theorem isTopQueue_setHoriz : (heads.setHoriz a value b).isTopQueue = (heads b).isTopQueue := by
  by_cases same : b = a <;> simp [setHoriz, same]

@[simp] theorem horizLp_setVert : (heads.setVert a value b).horizLp = (heads b).horizLp := by
  by_cases same : b = a <;> simp [setVert, same]

@[simp] theorem vertLp_setVert : (heads.setVert a value b).vertLp = if b = a then value else (heads b).vertLp := by
  by_cases same : b = a <;> simp [setVert, same]

@[simp] theorem prevQh_setVert : (heads.setVert a value b).prevQh = (heads b).prevQh := by
  by_cases same : b = a <;> simp [setVert, same]

@[simp] theorem isTopQueue_setVert : (heads.setVert a value b).isTopQueue = (heads b).isTopQueue := by
  by_cases same : b = a <;> simp [setVert, same]

@[simp] theorem horizLp_setPrev : (heads.setPrev a value b).horizLp = (heads b).horizLp := by
  by_cases same : b = a <;> simp [setPrev, same]

@[simp] theorem vertLp_setPrev : (heads.setPrev a value b).vertLp = (heads b).vertLp := by
  by_cases same : b = a <;> simp [setPrev, same]

@[simp] theorem prevQh_setPrev : (heads.setPrev a value b).prevQh = if b = a then value else (heads b).prevQh := by
  by_cases same : b = a <;> simp [setPrev, same]

@[simp] theorem isTopQueue_setPrev : (heads.setPrev a value b).isTopQueue = (heads b).isTopQueue := by
  by_cases same : b = a <;> simp [setPrev, same]

end Heads

def terminated (lp : BitVec 32) : Bool := lp &&& uhciLpTerminate != 0#32

/-- `xfer_enqueue` of the transfer unit whose queue head is at `xfer`. -/
def xferEnqueue (heads : Heads) (xfer uhciQh : BitVec 32) : Heads :=
  let heads :=
    if terminated (heads uhciQh).vertLp then
      heads.setHoriz xfer (heads uhciQh).horizLp
    else
      let heads := heads.setHoriz xfer (heads uhciQh).vertLp
      let nextQh := (heads uhciQh).vertLp &&& uhciLpAddrMask
      heads.setPrev nextQh xfer
  let heads := heads.setPrev xfer uhciQh
  heads.setVert uhciQh (xfer ||| uhciLpQh)

/-- `xfer_dequeue` of the transfer unit whose queue head is at `qh`. -/
def xferDequeue (heads : Heads) (qh : BitVec 32) : Heads :=
  let nextQh := (heads qh).horizLp &&& uhciLpAddrMask
  let heads := if (heads nextQh).isTopQueue = 0#8 then heads.setPrev nextQh (heads qh).prevQh else heads
  let prevQh := (heads qh).prevQh
  if (heads prevQh).isTopQueue ≠ 0#8 ∧ (heads nextQh).isTopQueue ≠ 0#8 then heads.setVert prevQh uhciLpTerminate
  else if (heads prevQh).isTopQueue ≠ 0#8 then heads.setVert prevQh (heads qh).horizLp
  else heads.setHoriz prevQh (heads qh).horizLp

inductive Top
  | interrupt | control | bulkIn | bulkOut
deriving DecidableEq

/-- The top queue that `uhci_init` links behind one. -/
def Top.next : Top → Option Top
  | .interrupt => some .control
  | .control => some .bulkIn
  | .bulkIn => some .bulkOut
  | .bulkOut => none

/-- The queue heads that `kzalloc_align` returned: different addresses, divisible by 16. -/
structure Uhci where
  qh : Top → BitVec 32
  aligned : ∀ k, qh k &&& uhciLpAddrMask = qh k
  nonzero : ∀ k, qh k ≠ 0#32
  injective : Function.Injective qh

def uhciInit (uh : Uhci) (heads : Heads) : Heads :=
  let top (horizLp : BitVec 32) : QueueHead :=
    { horizLp, vertLp := uhciLpTerminate, prevQh := 0#32, isTopQueue := 1#8 }
  let heads := update heads (uh.qh .interrupt) (top (uh.qh .control ||| uhciLpQh))
  let heads := update heads (uh.qh .control) (top (uh.qh .bulkIn ||| uhciLpQh))
  let heads := update heads (uh.qh .bulkIn) (top (uh.qh .bulkOut ||| uhciLpQh))
  update heads (uh.qh .bulkOut) (top uhciLpTerminate)

/-- The queue heads, and the units enqueued on each queue, the latest first. -/
structure Schedule where
  heads : Heads
  units : Top → List (BitVec 32)

inductive Event
  | enqueue (k : Top) (xfer : BitVec 32)
  | dequeue (xfer : BitVec 32)
  /-- a store that does not concern the schedule -/
  | other

namespace Schedule

variable (uh : Uhci) (s : Schedule)

/-- The schedule that `uhci_init` sets up. -/
def init (heads : Heads) : Schedule := { heads := uhciInit uh heads, units := fun _ => [] }

/-- The address is that of a top queue or of an enqueued unit. -/
def Contains (a : BitVec 32) : Prop := (∃ k, a = uh.qh k) ∨ ∃ k, a ∈ s.units k

@[simps -fullyApplied heads units]
def enqueue (k : Top) (xfer : BitVec 32) : Schedule :=
  { heads := xferEnqueue s.heads xfer (uh.qh k), units := update s.units k (xfer :: s.units k) }

@[simps -fullyApplied heads units]
def dequeue (k : Top) (xfer : BitVec 32) : Schedule :=
  { heads := xferDequeue s.heads xfer, units := update s.units k ((s.units k).erase xfer) }

end Schedule

/-- Transfer units as `xfer_alloc` prepares them. -/
structure IsUnit (heads : Heads) (xfer : BitVec 32) : Prop where
  aligned : xfer &&& uhciLpAddrMask = xfer
  nonzero : xfer ≠ 0#32
  notTop : (heads xfer).isTopQueue = 0#8

inductive Step (uh : Uhci) (s : Schedule) : Event → Schedule → Prop
  | enqueue {k : Top} {xfer : BitVec 32} (new : ¬s.Contains uh xfer) (isUnit : IsUnit s.heads xfer) :
      Step uh s (.enqueue k xfer) (s.enqueue uh k xfer)
  | dequeue {k : Top} {xfer : BitVec 32} (enqueued : xfer ∈ s.units k) : Step uh s (.dequeue xfer) (s.dequeue k xfer)
  | other {heads : Heads} (same : ∀ a, s.Contains uh a → heads a = s.heads a) : Step uh s .other { s with heads }

def pointer (a : BitVec 32) : BitVec 32 := a ||| uhciLpQh

def target (lp : BitVec 32) : Option (BitVec 32) := if terminated lp then none else some (lp &&& uhciLpAddrMask)

theorem pointer_and_mask {a : BitVec 32} (aligned : a &&& uhciLpAddrMask = a) : pointer a &&& uhciLpAddrMask = a := by
  have flag : uhciLpQh &&& uhciLpAddrMask = 0#32 := by decide
  rw [pointer, BitVec.and_or_distrib_right, aligned, flag, BitVec.or_zero]

theorem terminated_pointer {a : BitVec 32} (aligned : a &&& uhciLpAddrMask = a) : terminated (pointer a) = false := by
  have low : uhciLpAddrMask &&& uhciLpTerminate = 0#32 := by decide
  have clear : a &&& uhciLpTerminate = 0#32 := by rw [← aligned, BitVec.and_assoc, low, BitVec.and_zero]
  rw [terminated, pointer, BitVec.and_or_distrib_right, clear]
  rfl

theorem target_pointer {a : BitVec 32} (aligned : a &&& uhciLpAddrMask = a) : target (pointer a) = some a := by
  rw [target, terminated_pointer aligned, pointer_and_mask aligned]
  rfl

section Stores

variable (heads : Heads) (xfer q b : BitVec 32)

/-- The link of the first unit of a queue, or what stands for it. -/
def firstLink : BitVec 32 := if terminated (heads q).vertLp then (heads q).horizLp else (heads q).vertLp

theorem horizLp_xferEnqueue :
    (xferEnqueue heads xfer q b).horizLp = if b = xfer then firstLink heads q else (heads b).horizLp := by
  unfold xferEnqueue firstLink
  by_cases none : terminated (heads q).vertLp = true <;> simp [none]

theorem vertLp_xferEnqueue :
    (xferEnqueue heads xfer q b).vertLp = if b = q then pointer xfer else (heads b).vertLp := by
  unfold xferEnqueue pointer
  by_cases none : terminated (heads q).vertLp = true <;> simp [none]

theorem prevQh_xferEnqueue :
    (xferEnqueue heads xfer q b).prevQh =
      if b = xfer then q else if target (heads q).vertLp = some b then xfer else (heads b).prevQh := by
  unfold xferEnqueue target
  by_cases none : terminated (heads q).vertLp = true <;> simp [none, eq_comm]

theorem isTopQueue_xferEnqueue : (xferEnqueue heads xfer q b).isTopQueue = (heads b).isTopQueue := by
  unfold xferEnqueue
  by_cases none : terminated (heads q).vertLp = true <;> simp [none]

end Stores

section Stores

variable {heads : Heads} {qh nextQh prevQh : BitVec 32} (next : (heads qh).horizLp &&& uhciLpAddrMask = nextQh)
  (prev : (heads qh).prevQh = prevQh) (b : BitVec 32)

include next prev

/-- The three cases of `xfer_dequeue`, with the neighbours as they are before. -/
theorem xferDequeue_eq :
    xferDequeue heads qh =
      let back := if (heads nextQh).isTopQueue = 0#8 then heads.setPrev nextQh prevQh else heads
      if (heads prevQh).isTopQueue = 0#8 then back.setHoriz prevQh (heads qh).horizLp
      else back.setVert prevQh (if (heads nextQh).isTopQueue = 0#8 then (heads qh).horizLp else uhciLpTerminate) := by
  unfold xferDequeue
  by_cases unit : (heads nextQh).isTopQueue = 0#8 <;> by_cases former : (heads prevQh).isTopQueue = 0#8 <;>
    simp [next, prev, unit, former]

theorem horizLp_xferDequeue :
    (xferDequeue heads qh b).horizLp =
      if b = prevQh ∧ (heads prevQh).isTopQueue = 0#8 then (heads qh).horizLp else (heads b).horizLp := by
  rw [xferDequeue_eq next prev]
  by_cases unit : (heads nextQh).isTopQueue = 0#8 <;> split_ifs <;> simp_all

theorem vertLp_xferDequeue :
    (xferDequeue heads qh b).vertLp =
      if b = prevQh ∧ (heads prevQh).isTopQueue ≠ 0#8 then
        (if (heads nextQh).isTopQueue = 0#8 then (heads qh).horizLp else uhciLpTerminate)
      else (heads b).vertLp := by
  rw [xferDequeue_eq next prev]
  by_cases unit : (heads nextQh).isTopQueue = 0#8 <;> split_ifs <;> simp_all

theorem prevQh_xferDequeue :
    (xferDequeue heads qh b).prevQh =
      if b = nextQh ∧ (heads nextQh).isTopQueue = 0#8 then prevQh else (heads b).prevQh := by
  rw [xferDequeue_eq next prev]
  by_cases unit : (heads nextQh).isTopQueue = 0#8 <;> split_ifs <;> simp_all

theorem isTopQueue_xferDequeue : (xferDequeue heads qh b).isTopQueue = (heads b).isTopQueue := by
  rw [xferDequeue_eq next prev]
  by_cases unit : (heads nextQh).isTopQueue = 0#8 <;> split_ifs <;> simp_all

end Stores

variable {uh : Uhci} {s s' : Schedule} {event : Event} {events : List Event} {k : Top} {xfer : BitVec 32}

/-- The link that leads from a top queue, or from its last unit, to the next top queue. -/
def Uhci.after (uh : Uhci) (k : Top) : BitVec 32 := (k.next.map fun j => pointer (uh.qh j)).getD uhciLpTerminate

/-- The units are linked in this order from the link `first` of the top queue on, and lead back. -/
def Below (uh : Uhci) (heads : Heads) (k : Top) (first : BitVec 32) (units : List (BitVec 32)) : Prop :=
  Threaded pointer (fun a => (heads a).horizLp) (fun a => (heads a).prevQh) (uh.qh k) first units (uh.after k)

structure Inv (uh : Uhci) (s : Schedule) : Prop where
  top : ∀ k, (s.heads (uh.qh k)).isTopQueue ≠ 0#8
  down : ∀ k, (s.heads (uh.qh k)).horizLp = uh.after k
  unit : ∀ k, ∀ a ∈ s.units k, IsUnit s.heads a
  separate : Separate s.units
  empty : ∀ k, s.units k = [] → (s.heads (uh.qh k)).vertLp = uhciLpTerminate
  below : ∀ k, s.units k ≠ [] → Below uh s.heads k (s.heads (uh.qh k)).vertLp (s.units k)

theorem inv_uhciInit (uh : Uhci) (heads : Heads) : Inv uh (.init uh heads) := by
  have other : ∀ {j k}, j ≠ k → uh.qh j ≠ uh.qh k := fun different same => different (uh.injective same)
  have queue : ∀ k, uhciInit uh heads (uh.qh k) =
      { horizLp := uh.after k, vertLp := uhciLpTerminate, prevQh := 0#32, isTopQueue := 1#8 } := by
    intro k
    cases k <;> simp [uhciInit, other, Uhci.after, Top.next, pointer]
  refine ⟨?_, ?_, nofun, ⟨fun _ => nodup_nil, nofun⟩, ?_, fun k nonempty => absurd rfl nonempty⟩
  · intro k
    have top : (uhciInit uh heads (uh.qh k)).isTopQueue = 1#8 := by rw [queue]
    exact top.trans_ne (by decide)
  · intro k
    exact congrArg QueueHead.horizLp (queue k)
  · intro k _
    exact congrArg QueueHead.vertLp (queue k)

/-- What the removal of a unit changes, in terms of its place in the queue. -/
structure Removed (uh : Uhci) (s : Schedule) (k : Top) (xfer : BitVec 32) (former later : List (BitVec 32))
    (heads : Heads) : Prop where
  isTopQueue : ∀ b, (heads b).isTopQueue = (s.heads b).isTopQueue
  top_horizLp : ∀ j, (heads (uh.qh j)).horizLp = (s.heads (uh.qh j)).horizLp
  horizLp : ∀ j, ∀ b ∈ s.units j,
    (heads b).horizLp = if former.getLast? = some b then (s.heads xfer).horizLp else (s.heads b).horizLp
  prevQh : ∀ j, ∀ b ∈ s.units j,
    (heads b).prevQh = if later.head? = some b then (s.heads xfer).prevQh else (s.heads b).prevQh
  vertLp : ∀ j, (heads (uh.qh j)).vertLp =
    if former = [] ∧ j = k then (if later = [] then uhciLpTerminate else (s.heads xfer).horizLp)
    else (s.heads (uh.qh j)).vertLp

namespace Inv

section

variable (inv : Inv uh s)
include inv

theorem unit_ne (member : xfer ∈ s.units k) (j : Top) : xfer ≠ uh.qh j := by
  rintro rfl
  exact inv.top j (inv.unit k _ member).notTop

theorem below_first (k : Top) : Below uh s.heads k (firstLink s.heads (uh.qh k)) (s.units k) := by
  cases units : s.units k with
  | nil =>
    have vert := inv.empty k units
    rw [firstLink, vert]
    exact inv.down k
  | cons a rest =>
    have below := inv.below k (by simp [units])
    rw [units] at below
    have valid : terminated (s.heads (uh.qh k)).vertLp = false := by
      rw [below.1]
      exact terminated_pointer (inv.unit k a (by simp [units])).aligned
    rwa [firstLink, valid]

theorem target_vertLp (k : Top) : target (s.heads (uh.qh k)).vertLp = (s.units k).head? := by
  cases units : s.units k with
  | nil =>
    rw [inv.empty k units]
    rfl
  | cons a rest =>
    have below := inv.below k (by simp [units])
    rw [units] at below
    rw [below.1, target_pointer (inv.unit k a (by simp [units])).aligned]
    rfl

theorem enqueue (k : Top) (new : ¬s.Contains uh xfer) (isUnit : IsUnit s.heads xfer) :
    Inv uh (s.enqueue uh k xfer) := by
  have notTop : ∀ j, uh.qh j ≠ xfer := fun j same => new (.inl ⟨j, same.symm⟩)
  have fresh : ∀ j, xfer ∉ s.units j := fun j member => new (.inr ⟨j, member⟩)
  have ne : ∀ {j a}, a ∈ s.units j → a ≠ xfer := fun member same => fresh _ (same ▸ member)
  have first : ∀ {j a}, j ≠ k → a ∈ s.units j → (s.units k).head? ≠ some a := fun different member same =>
    different (inv.separate.unique member (mem_of_head? same))
  refine ⟨?_, ?_, ?_, inv.separate.insert k fresh, ?_, ?_⟩
  · intro j
    simpa [isTopQueue_xferEnqueue] using inv.top j
  · intro j
    simpa [horizLp_xferEnqueue, notTop j] using inv.down j
  · intro j a member
    have unit : IsUnit s.heads a := by
      by_cases same : j = k
      · subst same
        rcases mem_cons.1 (by simpa using member) with rfl | old
        · exact isUnit
        · exact inv.unit j a old
      · exact inv.unit j a (by simpa [same] using member)
    exact ⟨unit.aligned, unit.nonzero, by simpa [isTopQueue_xferEnqueue] using unit.notTop⟩
  · intro j empty
    by_cases same : j = k
    · subst same
      simp at empty
    · have apart : uh.qh j ≠ uh.qh k := fun equal => same (uh.injective equal)
      simpa [vertLp_xferEnqueue, apart] using inv.empty j (by simpa [same] using empty)
  · intro j nonempty
    by_cases same : j = k
    · subst same
      have pushed : Below uh (xferEnqueue s.heads xfer (uh.qh j)) j (pointer xfer) (xfer :: s.units j) :=
        (inv.below_first j).push (inv.separate.nodup j) ?_ ?_ ?_ ?_
      · simpa [vertLp_xferEnqueue] using pushed
      · simp [horizLp_xferEnqueue]
      · simp [prevQh_xferEnqueue]
      · intro b member
        simp [horizLp_xferEnqueue, ne member]
      · intro b member
        simp [prevQh_xferEnqueue, ne member, inv.target_vertLp]
    · have apart : uh.qh j ≠ uh.qh k := fun equal => same (uh.injective equal)
      have old := inv.below j (by simpa [same] using nonempty)
      have kept : Below uh (xferEnqueue s.heads xfer (uh.qh k)) j _ _ := old.congr ?_ ?_
      · simpa [vertLp_xferEnqueue, apart, same] using kept
      · intro b member
        simp [horizLp_xferEnqueue, ne member]
      · intro b member
        simp [prevQh_xferEnqueue, ne member, inv.target_vertLp, first same member]

section

variable (units : s.units k = former ++ xfer :: later)
include units

/-- `prev_qh` leads to the unit before or to the top queue, and `horiz_lp` to the unit behind or out of the queue. -/
theorem neighbours : (s.heads xfer).prevQh = former.getLast?.getD (uh.qh k) ∧
      (s.heads xfer).horizLp = (later.head?.map pointer).getD (uh.after k) := by
  have below := inv.below k (by simp [units])
  rw [units] at below
  exact below.neighbours

theorem nextQh_cases : (∃ c, later.head? = some c ∧ (s.heads xfer).horizLp &&& uhciLpAddrMask = c ∧ c ∈ s.units k) ∨
      later = [] ∧ ((∃ j, (s.heads xfer).horizLp &&& uhciLpAddrMask = uh.qh j) ∨
        (s.heads xfer).horizLp = uhciLpTerminate) := by
  rw [(inv.neighbours units).2]
  cases later with
  | nil =>
    refine .inr ⟨rfl, ?_⟩
    unfold Uhci.after
    cases k.next with
    | none => exact .inr rfl
    | some j => exact .inl ⟨j, pointer_and_mask (uh.aligned j)⟩
  | cons c later =>
    have member : c ∈ s.units k := by simp [units]
    exact .inl ⟨c, rfl, pointer_and_mask (inv.unit k c member).aligned, member⟩

/-- The queue head in front of a unit is a unit itself iff it is the last one of those before it. -/
theorem front_unit_iff (b : BitVec 32) :
    b = (s.heads xfer).prevQh ∧ (s.heads (s.heads xfer).prevQh).isTopQueue = 0#8 ↔ former.getLast? = some b := by
  rw [(inv.neighbours units).1]
  cases last : former.getLast? with
  | none => simp [inv.top k]
  | some q =>
    have unit : q ∈ s.units k := units ▸ mem_append_left _ (mem_of_getLast? last)
    simp [(inv.unit k q unit).notTop, eq_comm]

/-- The queue head in front of a unit is a top queue iff the unit is the first one there. -/
theorem front_top_iff (j : Top) :
    uh.qh j = (s.heads xfer).prevQh ∧ (s.heads (s.heads xfer).prevQh).isTopQueue ≠ 0#8 ↔ former = [] ∧ j = k := by
  rw [(inv.neighbours units).1]
  cases last : former.getLast? with
  | none => simp [getLast?_eq_none_iff.1 last, inv.top k, uh.injective.eq_iff]
  | some q =>
    have unit : q ∈ s.units k := units ▸ mem_append_left _ (mem_of_getLast? last)
    have nonempty : former ≠ [] := by
      rintro rfl
      cases last
    simp [nonempty, (inv.unit_ne unit j).symm]

theorem removed : Removed uh s k xfer former later (xferDequeue s.heads xfer) := by
  have next := inv.nextQh_cases units
  refine ⟨isTopQueue_xferDequeue rfl rfl, ?_, ?_, ?_, ?_⟩
  · intro j
    rw [horizLp_xferDequeue rfl rfl, if_neg]
    rintro ⟨same, notTop⟩
    exact inv.top j (same ▸ notTop)
  · intro j b inside
    rw [horizLp_xferDequeue rfl rfl]
    simp [inv.front_unit_iff units]
  · intro j b inside
    rw [prevQh_xferDequeue rfl rfl]
    rcases next with ⟨c, head, link, unit⟩ | ⟨rfl, ⟨i, link⟩ | link⟩
    · simp [head, link, (inv.unit k c unit).notTop, eq_comm]
    · simp [link, inv.top i]
    · have nonzero : b ≠ uhciLpTerminate &&& uhciLpAddrMask := (inv.unit j b inside).nonzero
      simp [link, nonzero]
  · intro j
    have value : (if (s.heads ((s.heads xfer).horizLp &&& uhciLpAddrMask)).isTopQueue = 0#8 then (s.heads xfer).horizLp
        else uhciLpTerminate) = if later = [] then uhciLpTerminate else (s.heads xfer).horizLp := by
      rcases next with ⟨c, head, link, unit⟩ | ⟨rfl, ⟨i, link⟩ | link⟩
      · have nonempty : later ≠ [] := by
          rintro rfl
          cases head
        simp [link, nonempty, (inv.unit k c unit).notTop]
      · simp [link, inv.top i]
      · simp [link]
    rw [vertLp_xferDequeue rfl rfl, value]
    simp [inv.front_top_iff units]

theorem below_removed {heads : Heads} (removed : Removed uh s k xfer former later heads)
    (nonempty : former ++ later ≠ []) : Below uh heads k (heads (uh.qh k)).vertLp (former ++ later) := by
  have below := inv.below k (by simp [units])
  have nodup := inv.separate.nodup k
  have inside : ∀ b ∈ former ++ later, b ∈ s.units k := by
    intro b member
    rw [units, mem_append, mem_cons]
    exact (mem_append.1 member).imp_right .inr
  rw [units] at below nodup
  have rest := below.remove nodup (fun b member => removed.horizLp k b (inside b member))
    (fun b member => removed.prevQh k b (inside b member))
  have first : (heads (uh.qh k)).vertLp =
      if former = [] then (s.heads xfer).horizLp else (s.heads (uh.qh k)).vertLp := by
    rw [removed.vertLp]
    cases former with
    | nil =>
      have nonempty : later ≠ [] := by simpa using nonempty
      simp [nonempty]
    | cons b former => simp
  rw [first]
  exact rest

theorem below_other {heads : Heads} {j : Top} (removed : Removed uh s k xfer former later heads) (other : j ≠ k)
    (nonempty : s.units j ≠ []) : Below uh heads j (heads (uh.qh j)).vertLp (s.units j) := by
  rw [removed.vertLp, if_neg fun both => other both.2]
  refine (inv.below j nonempty).congr ?_ ?_
  · intro b inside
    have notLast : former.getLast? ≠ some b := fun last =>
      other (inv.separate.unique inside (units ▸ mem_append_left _ (mem_of_getLast? last)))
    rw [removed.horizLp j b inside, if_neg notLast]
  · intro b inside
    have notFirst : later.head? ≠ some b := fun head =>
      other (inv.separate.unique inside
        (units ▸ mem_append_right _ (mem_cons_of_mem _ (mem_of_head? head))))
    rw [removed.prevQh j b inside, if_neg notFirst]

end

theorem dequeue (enqueued : xfer ∈ s.units k) : Inv uh (s.dequeue k xfer) := by
  obtain ⟨former, later, units⟩ := append_of_mem enqueued
  have removed := inv.removed units
  have nodup := inv.separate.nodup k
  rw [units] at nodup
  have absent : xfer ∉ former := fun inside =>
    (nodup_append.1 nodup).2.2 xfer inside xfer mem_cons_self rfl
  have erased : (s.units k).erase xfer = former ++ later := by
    rw [units, erase_append_right _ absent, erase_cons_head]
  rw [Schedule.dequeue, erased]
  have fewer : ∀ j, (update s.units k (former ++ later) j).Sublist (s.units j) := by
    intro j
    by_cases same : j = k
    · subst same
      rw [update_self, ← erased]
      exact erase_sublist
    · rw [update_of_ne same]
  refine ⟨?_, ?_, ?_, inv.separate.sublist fewer, ?_, ?_⟩
  · intro j
    rw [removed.isTopQueue]
    exact inv.top j
  · intro j
    rw [removed.top_horizLp]
    exact inv.down j
  · intro j a inside
    have unit := inv.unit j a ((fewer j).subset inside)
    exact ⟨unit.aligned, unit.nonzero, (removed.isTopQueue a).trans unit.notTop⟩
  · intro j empty
    rw [removed.vertLp]
    by_cases same : j = k
    · subst same
      obtain ⟨rfl, rfl⟩ : former = [] ∧ later = [] := by simpa using empty
      simp
    · rw [if_neg fun both => same both.2]
      exact inv.empty j (by simpa [same] using empty)
  · intro j nonempty
    by_cases same : j = k
    · subst same
      simp only [update_self] at nonempty ⊢
      exact inv.below_removed units removed nonempty
    · simp only [update_of_ne same] at nonempty ⊢
      exact inv.below_other units removed same nonempty

/-- Enqueuing and dequeuing keep the units of each queue linked both ways. -/
theorem step (taken : Step uh s event s') : Inv uh s' := by
  cases taken with
  | @enqueue k xfer new isUnit => exact inv.enqueue k new isUnit
  | dequeue enqueued => exact inv.dequeue enqueued
  | other same =>
    have top : ∀ k, _ = s.heads (uh.qh k) := fun k => same _ (.inl ⟨k, rfl⟩)
    have unit : ∀ k, ∀ a ∈ s.units k, _ = s.heads a := fun k a member => same a (.inr ⟨k, member⟩)
    refine ⟨?_, ?_, ?_, inv.separate, ?_, ?_⟩
    · intro k
      exact (congrArg QueueHead.isTopQueue (top k)).trans_ne (inv.top k)
    · intro k
      exact (congrArg QueueHead.horizLp (top k)).trans (inv.down k)
    · intro k a member
      have old := inv.unit k a member
      exact ⟨old.aligned, old.nonzero, (congrArg QueueHead.isTopQueue (unit k a member)).trans old.notTop⟩
    · intro k empty
      exact (congrArg QueueHead.vertLp (top k)).trans (inv.empty k empty)
    · intro k nonempty
      have kept := (inv.below k nonempty).congr (fun a member => congrArg QueueHead.horizLp (unit k a member))
        fun a member => congrArg QueueHead.prevQh (unit k a member)
      rw [← top k] at kept
      exact kept

end

end Inv

/-- The schedule as the controller and the driver see it. -/
structure Integrity (uh : Uhci) (s : Schedule) : Prop where
  /-- `vert_lp` of a top queue leads to its units, each of them once, the one enqueued last being first, and `horiz_lp`
  of the last one to the next top queue -/
  visits : ∀ k, s.units k ≠ [] → Links.Reaches (fun a => target (s.heads a).horizLp)
    (target (s.heads (uh.qh k)).vertLp) (s.units k) (k.next.map uh.qh)
  separate : Separate s.units
  /-- an empty queue has no valid `vert_lp`, and its `horiz_lp` leads to the next top queue -/
  empty : ∀ k, s.units k = [] → terminated (s.heads (uh.qh k)).vertLp = true
  down : ∀ k, target (s.heads (uh.qh k)).horizLp = k.next.map uh.qh
  /-- `prev_qh` leads back along the same way -/
  back : ∀ k, (s.units k).map (fun a => (s.heads a).prevQh) = (uh.qh k :: s.units k).dropLast

theorem target_after (uh : Uhci) (k : Top) : target (uh.after k) = k.next.map uh.qh := by
  have terminate : target uhciLpTerminate = none := by decide
  unfold Uhci.after
  cases k.next with
  | none => exact terminate
  | some j => exact target_pointer (uh.aligned j)

theorem Below.reaches {heads : Heads} {units : List (BitVec 32)} {before first last : BitVec 32}
    (threaded : Threaded pointer (fun a => (heads a).horizLp) (fun a => (heads a).prevQh) before first units last)
    (isUnit : ∀ a ∈ units, IsUnit heads a) :
    Links.Reaches (fun a => target (heads a).horizLp) (target first) units (target last) := by
  induction units generalizing before first with
  | nil => exact congrArg target threaded
  | cons a units ih =>
    obtain ⟨rfl, -, rest⟩ := threaded
    refine ⟨target_pointer (isUnit a mem_cons_self).aligned, ih rest ?_⟩
    intro b member
    exact isUnit b (mem_cons_of_mem a member)

theorem Inv.integrity (inv : Inv uh s) : Integrity uh s where
  visits k nonempty := by
    rw [← target_after]
    exact Below.reaches (inv.below k nonempty) (inv.unit k)
  separate := inv.separate
  empty k empty := by
    rw [inv.empty k empty]
    rfl
  down k := by rw [inv.down, target_after]
  back k := (inv.below_first k).map_back

/-- Whatever is enqueued and dequeued, the schedule keeps its shape. -/
theorem schedule_integrity {heads : Heads} (run : Run (Step uh) (.init uh heads) events s) : Integrity uh s := by
  have inv := run.invariant (Inv uh) (fun inv taken => inv.step taken) (inv_uhciInit uh heads)
  exact inv.integrity

def Top.index : Top → BitVec 32
  | .interrupt => 1#32
  | .control => 2#32
  | .bulkIn => 3#32
  | .bulkOut => 4#32

def lowUhci : Uhci where
  qh k := 16#32 * k.index
  aligned k := by cases k <;> decide
  nonzero k := by cases k <;> decide
  injective j k same := by cases j <;> cases k <;> first | rfl | exact absurd same (by decide)

/-- Two units are enqueued on the last queue, and the older one, whose link is terminated, is dequeued. -/
theorem schedule_integrity_bulk_out : ∃ s, Run (Step lowUhci) (.init lowUhci fun _ => ⟨0#32, 0#32, 0#32, 0#8⟩)
      [.enqueue .bulkOut 0x100#32, .enqueue .bulkOut 0x200#32, .dequeue 0x100#32] s ∧
    s.units .bulkOut = [0x200#32] ∧ Integrity lowUhci s := by
  let start : Schedule := .init lowUhci fun _ => ⟨0#32, 0#32, 0#32, 0#8⟩
  have new₁ : ¬start.Contains lowUhci 0x100#32 := by
    rintro (⟨k, same⟩ | ⟨k, member⟩)
    · cases k <;> exact absurd same (by decide)
    · cases member
  have new₂ : ¬(start.enqueue lowUhci .bulkOut 0x100#32).Contains lowUhci 0x200#32 := by
    rintro (⟨k, same⟩ | ⟨k, member⟩)
    · cases k <;> exact absurd same (by decide)
    · cases k <;> exact absurd member (by decide)
  have first : Step lowUhci start (.enqueue .bulkOut 0x100#32) _ := .enqueue new₁ ⟨by decide, by decide, by decide⟩
  have second : Step lowUhci _ (.enqueue .bulkOut 0x200#32) _ := .enqueue new₂ ⟨by decide, by decide, by decide⟩
  have third : Step lowUhci _ (.dequeue 0x100#32) (Schedule.dequeue _ .bulkOut _) :=
    .dequeue (s := (start.enqueue lowUhci .bulkOut 0x100#32).enqueue lowUhci .bulkOut 0x200#32) (by decide)
  have run := ((Run.single first).snoc second).snoc third
  exact ⟨_, run, by decide, schedule_integrity run⟩

end MicroOs.Usb
