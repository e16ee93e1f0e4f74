import Reverse.Sherlock.Cpu

/-!
# The traced memory

`core_mem.c` keeps 32-bit words in the hash table of `util_hash.c`: 257 Judy
arrays, the key modulo 257 selecting the array and the quotient the index in
it.  Stores go to the key `addr >> 2`; `mem_get_addr` and
`mem_get_addr_value` use the address itself as key.
-/

namespace Reverse.Sherlock

abbrev Byte := BitVec 8

/-- `sl_addr_t` with its `MEM_METADATA`; the edge names the history node that
holds the `mem_data_t`. -/
structure SlAddr where
  value : Word
  lastWrite : Option NodeId
deriving DecidableEq, Repr

/-- The content of a fresh item, `calloc`ed by `ht_item_init`. -/
def SlAddr.init : SlAddr := { value := 0, lastWrite := none }

def hashSize : Nat := 257

/-- The static `table` of `util_hash.c`. -/
structure HashTable where
  judy : Nat → Nat → Option SlAddr

namespace HashTable

def put (table : HashTable) (key : Word) (item : SlAddr) : HashTable where
  judy := fun bucket index =>
    if bucket = key.toNat % hashSize ∧ index = key.toNat / hashSize then
      some item
    else table.judy bucket index

/-- The item `ht_get` answers, created when there is none. -/
def get (table : HashTable) (key : Word) : SlAddr :=
  (table.judy (key.toNat % hashSize) (key.toNat / hashSize)).getD .init

/-- `ht_get`: the item and the table in which it now exists. -/
def htGet (table : HashTable) (key : Word) : SlAddr × HashTable :=
  (table.get key, table.put key (table.get key))

theorem get_put (table : HashTable) (key other : Word) (item : SlAddr) :
    (table.put key item).get other = if other = key then item else table.get other := by
  by_cases same : other = key
  · subst other
    simp [put, get]
  · have differ : ¬ (other.toNat % hashSize = key.toNat % hashSize ∧
        other.toNat / hashSize = key.toNat / hashSize) := by
      rintro ⟨sameBucket, sameIndex⟩
      apply same
      apply BitVec.eq_of_toNat_eq
      rw [← Nat.mod_add_div other.toNat hashSize,
        ← Nat.mod_add_div key.toNat hashSize, sameBucket, sameIndex]
    simp [put, get, same, differ]

@[simp] theorem get_htGet (table : HashTable) (key other : Word) :
    (table.htGet key).2.get other = table.get other := by
  rw [htGet, get_put]
  split
  · next same => rw [same]
  · rfl

end HashTable

/-- Little-endian load of four bytes, `*(uint32_t*)data`. -/
def loadWord (data : Nat → Byte) : Word :=
  data 3 ++ data 2 ++ data 1 ++ data 0

def align32Bit : Word := 0b11

/-- The mask `mem_exec` computes: the bits of the word that survive. -/
def memMask (addr : Word) (width : Nat) : Word :=
  if addr &&& align32Bit = 0 then
    match width with
    | 1 => ~~~ 0xFF#32
    | 2 => ~~~ 0xFFFF#32
    | 3 => ~~~ 0xFFFFFF#32
    | _ => 0
  else
    let byte := (addr &&& align32Bit).toNat
    match width with
    | 1 => ~~~ (0xFF#32 <<< (byte <<< 3))
    | 2 => ~~~ (0xFFFF#32 <<< (byte <<< 3))
    | 3 => ~~~ (0xFFFFFF#32 <<< (byte <<< 2))
    | _ => 0

/-- The data word moved to its place in the aligned word. -/
def memShifted (addr : Word) (data : Nat → Byte) : Word :=
  loadWord data <<< ((addr &&& align32Bit).toNat <<< 3)

/-- The new value of the word a store goes to. -/
def memMerge (addr : Word) (data : Nat → Byte) (width : Nat) (value : Word) : Word :=
  (value &&& memMask addr width) ||| (memShifted addr data &&& ~~~ memMask addr width)

def memKey (addr : Word) : Word := addr >>> 2

def memExec (table : HashTable) (addr : Word) (data : Nat → Byte) (width : Nat) : HashTable :=
  let item := table.htGet (memKey addr)
  item.2.put (memKey addr) { item.1 with value := memMerge addr data width item.1.value }

def memGetAddrValue (table : HashTable) (addr : Word) : Word :=
  (table.get addr).value

theorem get_memExec (table : HashTable) (addr key : Word) (data : Nat → Byte) (width : Nat) :
    (memExec table addr data width).get key =
      if key = memKey addr then
        { table.get key with
          value := memMerge addr data width (table.get key).value }
      else table.get key := by
  rw [memExec, HashTable.get_put]
  split
  · next same => simp [HashTable.htGet, same]
  · simp

end Reverse.Sherlock
