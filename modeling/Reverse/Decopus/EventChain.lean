import Reverse.Decopus.Events

/-!
# Events that are built up

A port fills in its events with the functions of `hwetrace_common.h`.  An event
that does not fit into one container is a chain of them: `refnext` leads from
one to the next, and `hwe_extend` links another one behind the last.  A chain
is modelled by the list of its containers, the head first.  The end of the
list is `refnext == NULL`.
-/

namespace Reverse.Decopus

/-- A reference, `hwe_ref_t`. -/
abbrev Ref := BitVec 64

def hweRefMax : Nat := 16

def hweMemDataMax : Nat := 256

def hweNull : BitVec 4 := 1

def hweMem32 : BitVec 4 := 5

/-- The part of a container that is used while an event is built up. -/
structure Part where
  type : BitVec 4
  ndates : BitVec 2
  nrefs : Nat
  expected : BitVec 32
  refs : Nat → Ref
  mem32 : Mem32
  data : Nat → BitVec 8

/-- `hwe_head_init`; references, body and data stay as they were. -/
def hweHeadInit (cont : Part) : Part :=
  { cont with type := hweNull, ndates := 0, nrefs := 0, expected := 0 }

/-- The containers that the allocator has for one event, as it finds them. -/
abbrev Pool := Nat → Part

def Pool.fresh (pool : Pool) (pos : Nat) : Part :=
  hweHeadInit (pool pos)

/-- The chain of `hwe_init`. -/
def hweInit (pool : Pool) : List Part := [pool.fresh 0]

def hweExtend (pool : Pool) (chain : List Part) : List Part :=
  chain ++ [pool.fresh chain.length]

/-- The container that a loop has reached, a new one at the end of the
chain. -/
def current (pool : Pool) (pos : Nat) (chain : List Part) : Part :=
  chain.head?.getD (pool.fresh pos)

/-- The loop of `HWE_HEAD_reset`; the head has the type and the dates that are
passed to it. -/
def hweHeadReset (pool : Pool) (pos : Nat) (chain : List Part)
    (type : BitVec 4) (nrefs : Nat) (ndates : BitVec 2) : List Part :=
  let cont :=
    { current pool pos chain with
      type := type, ndates := ndates, expected := 0
      nrefs := min hweRefMax nrefs }
  if nrefs ≤ hweRefMax ∧ chain.length ≤ 1 then [cont]
  else
    cont :: hweHeadReset pool (pos + 1) chain.tail hweNull (nrefs - hweRefMax) 0
termination_by nrefs + chain.length
decreasing_by
  simp only [hweRefMax, List.length_tail] at *
  omega

def hweHeadSetNrefs (pool : Pool) (pos : Nat) (chain : List Part) (nrefs : Nat) : List Part :=
  let cont := current pool pos chain
  if hweRefMax < nrefs then
    { cont with nrefs := hweRefMax } ::
      hweHeadSetNrefs pool (pos + 1) chain.tail (nrefs - hweRefMax)
  else { cont with nrefs := nrefs } :: chain.tail
termination_by nrefs
decreasing_by
  unfold hweRefMax at *
  omega

/-- Store a reference behind those of a container. -/
def Part.push (cont : Part) (href : Ref) : Part :=
  { cont with
    nrefs := cont.nrefs + 1
    refs := Function.update cont.refs cont.nrefs href }

def hweHeadAddRef (pool : Pool) (pos : Nat) : List Part → Ref → List Part
  | [], href => [(pool.fresh pos).push href]
  | cont :: rest, href =>
    if cont.nrefs = hweRefMax then
      cont :: hweHeadAddRef pool (pos + 1) rest href
    else cont.push href :: rest

def hweHeadSetRef : List Part → Nat → Ref → List Part
  | [], _, _ => []
  | cont :: rest, ind, href =>
    if hweRefMax ≤ ind then
      cont :: hweHeadSetRef rest (ind - hweRefMax) href
    else { cont with refs := Function.update cont.refs ind href } :: rest

/-- The count of `handle_event`, an `int`. -/
def handleCount (chain : List Part) : Int :=
  (BitVec.ofNat 32 (chain.map Part.nrefs).sum).toInt

/-- The slot that `event_ref` and `event_mult_ref` walk to; they do not look
for the end of the chain. -/
def refSlot : List Part → Nat → Option Ref
  | [], _ => none
  | cont :: rest, idx =>
    if idx < hweRefMax then some (cont.refs idx)
    else refSlot rest (idx - hweRefMax)

/-- `event_ref` for the counted references: no reference behind the last one.
The outer `none` is a walk behind the end of the chain. -/
def eventRef (chain : List Part) (idx : Nat) : Option (Option Ref) :=
  if handleCount chain ≤ idx then some none
  else (refSlot chain idx).map some

def hweMemUseData (access : BitVec 4) : BitVec 1 :=
  if access ∈ ([6, 7, 8, 9, 10, 11] : List (BitVec 4)) then 0 else 1

/-- The field for a width, which holds one less. -/
def widthField (width : Nat) : BitVec 8 :=
  (BitVec.ofNat 32 width - 1).setWidth 8

def Part.setWidth (cont : Part) (width : Nat) : Part :=
  { cont with mem32 := { cont.mem32 with width := widthField width } }

/-- The loop of `HWE_MEM32_init`; `body` is what it fills in but for the
address and the width. -/
def mem32Fill (pool : Pool) (pos : Nat) (chain : List Part)
    (body : Mem32) (addr : Word) (width : Nat) : List Part :=
  let cont :=
    { current pool pos chain with
      type := hweMem32, mem32 := { body with addr := addr } }
  if width ≤ hweMemDataMax then cont.setWidth width :: chain.tail
  else
    cont.setWidth hweMemDataMax ::
      mem32Fill pool (pos + 1) chain.tail body (addr + 256) (width - hweMemDataMax)
termination_by width
decreasing_by
  unfold hweMemDataMax at *
  omega

/-- What `HWE_MEM32_init` fills in but for the width. -/
def mem32Body (inst : Bool) (access : BitVec 4) (addr : Word) : Mem32 where
  access := access
  inst := if inst then 1 else 0
  condfailed := 0
  usedata := hweMemUseData access
  rcvack := 0
  width := 0
  addr := addr
  cpureqWidth := 0
  cpureqAddr := 0

/-- `HWE_MEM32_init` on the container of `hwe_init`. -/
def hweMem32Init (pool : Pool) (nrefs : Nat) (inst : Bool)
    (access : BitVec 4) (addr : Word) (width : Nat) : List Part :=
  let head :=
    { pool.fresh 0 with
      ndates := 2, nrefs := nrefs % 2 ^ 6, expected := 1 }
  mem32Fill pool 0 [head] (mem32Body inst access addr) addr width

/-- Containers become empty up to the first one that is. -/
def clearTail : List Part → List Part
  | [] => []
  | cont :: rest =>
    if cont.type = hweNull then cont :: rest
    else { cont with type := hweNull } :: clearTail rest

/-- A container that is not part of the access gets the body of the head. -/
def Part.join (cont : Part) (head : Mem32) (addr : Word) : Part :=
  if cont.type = hweMem32 then cont
  else
    { cont with type := hweMem32, mem32 := { head with addr := addr } }

/-- The loops of `HWE_MEM32_set_width` from a container on. -/
def setWidthFrom (pool : Pool) (pos : Nat) (cont : Part)
    (rest : List Part) (head : Mem32) (addr : Word) (width : Nat) :
    List Part :=
  if width ≤ hweMemDataMax then cont.setWidth width :: clearTail rest
  else
    cont.setWidth hweMemDataMax ::
      setWidthFrom pool (pos + 1)
        ((current pool (pos + 1) rest).join head (addr + 256)) rest.tail
        head (addr + 256) (width - hweMemDataMax)
termination_by width
decreasing_by
  unfold hweMemDataMax at *
  omega

/-- `HWE_MEM32_set_width`; the body of the head is copied when its width is
that of a full container. -/
def hweMem32SetWidth (pool : Pool) : List Part → Nat → List Part
  | [], _ => []
  | head :: rest, width =>
    setWidthFrom pool 0 head rest (head.setWidth hweMemDataMax).mem32 head.mem32.addr width

/-- The width of the containers of an access behind the head. -/
def widthBehind : List Part → Nat
  | [] => 0
  | cont :: rest =>
    if cont.type = hweMem32 then
      1 + cont.mem32.width.toNat + widthBehind rest
    else 0

/-- `HWE_MEM32_inc_width` with what it returns. -/
def hweMem32IncWidth (pool : Pool) (chain : List Part) (inc : Nat) : List Part × Nat :=
  match chain with
  | [] => ([], 0)
  | head :: rest =>
    let field := head.mem32.width
    if (1 + inc + field.toNat) % 2 ^ 32 ≤ hweMemDataMax then
      ({ head with
          mem32 :=
            { head.mem32 with width := field + BitVec.ofNat 8 inc } } ::
        rest, 1 + field.toNat)
    else
      let width := (1 + field.toNat + widthBehind rest) % 2 ^ 32
      (hweMem32SetWidth pool (head :: rest) ((width + inc) % 2 ^ 32), width)

def hweMem32SetByte : List Part → Nat → BitVec 8 → List Part
  | [], _, _ => []
  | cont :: rest, index, b =>
    if hweMemDataMax ≤ index then
      cont :: hweMem32SetByte rest (index - hweMemDataMax) b
    else { cont with data := Function.update cont.data index b } :: rest

/-- Fill the data of one container. -/
def Part.setData (cont : Part) (data : Nat → BitVec 8) : Part :=
  { cont with
    data := fun index =>
      if index ≤ cont.mem32.width.toNat then data index
      else cont.data index }

/-- `HWE_MEM32_set_data` behind a full container. -/
def setDataBehind : List Part → (Nat → BitVec 8) → List Part
  | [], _ => []
  | cont :: rest, data =>
    if cont.type = hweMem32 then
      cont.setData data ::
        if cont.mem32.width = 255 then
          setDataBehind rest fun index => data (index + hweMemDataMax)
        else rest
    else cont :: rest

/-- `HWE_MEM32_set_data`, which does not look at the type of the head. -/
def hweMem32SetData : List Part → (Nat → BitVec 8) → List Part
  | [], _ => []
  | head :: rest, data =>
    head.setData data ::
      if head.mem32.width = 255 then
        setDataBehind rest fun index => data (index + hweMemDataMax)
      else rest

end Reverse.Decopus
