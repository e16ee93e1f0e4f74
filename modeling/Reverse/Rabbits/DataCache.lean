import Reverse.Library.ByteMemory

/-!
# The data cache of the instruction set simulator

The model of a set associative data cache in `fc_annotations.c`, for the CPU
whose instructions are simulated.  Next to the lines there are the memory behind
the cache, the numbers that `random` returns, and what the functions read of
the CPU: the current trace event and whether an exclusive access is going on.

Some messages for debugging read the current trace event without a check, and
there is none while nothing is traced.  The result is `none` then, as it is
when the simulator exits with an error.
-/

namespace Reverse.Rabbits

open ByteMemory

/-- `CACHE_IS_WT` or `CACHE_IS_WB`. -/
inductive WritePolicy where
  | through
  | back
deriving DecidableEq, Repr

/-- The macros for the data cache.  There are `2 ^ linesBits` lines of
`2 ^ lineBits` bytes, in sets of `2 ^ assocBits` lines. -/
structure CacheConfig where
  policy : WritePolicy
  lineBits : Nat
  linesBits : Nat
  assocBits : Nat
  ramSize : Nat
  word : 2 ≤ lineBits
  divides : assocBits ≤ linesBits

namespace CacheConfig

def lineBytes (cfg : CacheConfig) : Nat := 2 ^ cfg.lineBits

def lines (cfg : CacheConfig) : Nat := 2 ^ cfg.linesBits

def assoc (cfg : CacheConfig) : Nat := 2 ^ cfg.assocBits

/-- `addr >> dcache_line_bits`. -/
def tagOf (cfg : CacheConfig) (addr : Nat) : Nat := addr / cfg.lineBytes

/-- `addr & dcache_line_mask`. -/
def offset (cfg : CacheConfig) (addr : Nat) : Nat := addr % cfg.lineBytes

/-- `addr & ~dcache_line_mask`. -/
def lineStart (cfg : CacheConfig) (addr : Nat) : Nat :=
  cfg.tagOf addr * cfg.lineBytes

/-- `tag & (dcache_lines - 1) & ~((1 << dcache_assoc_bits) - 1)`. -/
def startIdx (cfg : CacheConfig) (tag : Nat) : Nat :=
  tag % cfg.lines / cfg.assoc * cfg.assoc

end CacheConfig

/-- `dline_flags`, the tag and the bytes of a line. -/
structure CacheLine where
  valid : Bool
  dirty : Bool
  tag : Nat
  data : Nat → BitVec 8

/-- What the functions of the data cache read and write.  The trace event is
the flag `str` of the instruction, or nothing for `NULL`. -/
structure DataCache where
  line : Nat → CacheLine
  memory : Nat → BitVec 8
  random : Nat → Nat
  trId : Option Bool
  excl : Bool
  readSize : Nat

/-- `ADDR_DBG`. -/
def addrDbg : Nat := 0x1

namespace DataCache

def setLine (cache : DataCache) (idx : Nat) (line : CacheLine) : DataCache :=
  { cache with
    line := fun other => if other = idx then line else cache.line other }

/-- `systemc_qemu_write_memory`, and `memcpy` of a number. -/
def write (cache : DataCache) (addr nb val : Nat) : DataCache :=
  { cache with memory := store cache.memory addr nb val }

/-- A message that reads the instruction of the trace event. -/
def message (cache : DataCache) (printed : Bool) : Option DataCache :=
  if printed && cache.trId.isNone then none else some cache

end DataCache

def dcacheLinePresent (cfg : CacheConfig) (cache : DataCache) (startIdx tag : Nat) : Option Nat :=
  (List.range' startIdx cfg.assoc).find? fun idx =>
    tag == (cache.line idx).tag && (cache.line idx).valid

/-- An invalid line, or one that `random` chooses. -/
def dcacheLineReplace (cfg : CacheConfig) (cache : DataCache) (startIdx : Nat) : Nat × DataCache :=
  match (List.range' startIdx cfg.assoc).find? fun idx =>
      !(cache.line idx).valid with
  | some idx => (idx, cache)
  | none =>
    (startIdx + cache.random 0 % cfg.assoc,
      { cache with random := fun n => cache.random (n + 1) })

def dcacheInvalidateAll (cfg : CacheConfig) (cache : DataCache) :
    DataCache :=
  { cache with
    line := fun idx =>
      if idx < cfg.lines then { cache.line idx with valid := false }
      else cache.line idx }

def dcacheInvalidate (cfg : CacheConfig) (cache : DataCache) (addr : Nat) :
    DataCache :=
  let tag := cfg.tagOf addr
  match dcacheLinePresent cfg cache (cfg.startIdx tag) tag with
  | some idx => cache.setLine idx { cache.line idx with valid := false }
  | none => cache

/-- The bytes of a line are copied to an address, and the first one is written
once more for the simulated bus. -/
def writeBack (cfg : CacheConfig) (cache : DataCache) (idx addr : Nat) :
    DataCache :=
  { cache with
    memory := copy cache.memory addr cfg.lineBytes
      (cache.line idx).data }.write addr 1 ((cache.line idx).data 0).toNat

/-- One turn of the loop of `dcache_flush_all`. -/
def flushLine (cfg : CacheConfig) (cache : DataCache) (idx : Nat) :
    DataCache :=
  if (cache.line idx).valid && (cache.line idx).dirty then
    writeBack cfg
      (cache.setLine idx { cache.line idx with dirty := false }) idx
      ((cache.line idx).tag * cfg.lineBytes)
  else cache

def dcacheFlushAll (cfg : CacheConfig) (cache : DataCache) : DataCache :=
  match cfg.policy with
  | .through => cache
  | .back => (List.range cfg.lines).foldl (flushLine cfg) cache

def dcacheFlush (cfg : CacheConfig) (cache : DataCache) (addr : Nat) : Option DataCache :=
  let tag := cfg.tagOf addr
  match cfg.policy, dcacheLinePresent cfg cache (cfg.startIdx tag) tag with
  | .back, some idx =>
    if (cache.line idx).dirty then
      (cache.message
        (cfg.lineStart addr == cfg.lineStart addrDbg)).map
          fun cache =>
            let cache := writeBack cfg cache idx (cfg.lineStart addr)
            cache.setLine idx { cache.line idx with dirty := false }
    else some cache
  | _, _ => some cache

/-- The line that is evicted is copied back when it is dirty. -/
def evict (cfg : CacheConfig) (cache : DataCache) (idx : Nat) :
    DataCache :=
  match cfg.policy with
  | .through => cache
  | .back =>
    if (cache.line idx).valid && (cache.line idx).dirty then
      writeBack cfg cache idx ((cache.line idx).tag * cfg.lineBytes)
    else cache

/-- The request event takes over the size of the access. -/
def takeSize (cache : DataCache) : DataCache :=
  if cache.trId = some false then { cache with readSize := 0 } else cache

/-- A line gets the bytes around an address. -/
def fill (cfg : CacheConfig) (cache : DataCache) (idx addr : Nat) :
    DataCache :=
  cache.setLine idx
    { valid := true
      dirty := match cfg.policy with
        | .through => (cache.line idx).dirty
        | .back => false
      tag := cfg.tagOf addr
      data := fun ofs => cache.memory (cfg.lineStart addr + ofs) }

/-- The line that holds the address afterwards. -/
def dcacheRead (cfg : CacheConfig) (cache : DataCache) (addr : Nat) : Option (Nat × DataCache) :=
  let tag := cfg.tagOf addr
  match dcacheLinePresent cfg cache (cfg.startIdx tag) tag with
  | none =>
    let (idx, cache) := dcacheLineReplace cfg cache (cfg.startIdx tag)
    (cache.message ((cache.line idx).tag * cfg.lineBytes ==
      cfg.lineStart addrDbg)).bind fun cache =>
    let cache := evict cfg cache idx
    (cache.message cache.excl).map fun cache =>
      (idx, fill cfg (takeSize cache) idx addr)
  | some idx =>
    (cache.message cache.excl).bind fun cache =>
    if cache.readSize = 0 then none
    else some (idx, { cache with readSize := 0 })

/-- A read of some bytes inside of a line. -/
def readInLine (cfg : CacheConfig) (cache : DataCache) (addr nb : Nat) :
    Option (Nat × DataCache) :=
  (dcacheRead cfg { cache with readSize := nb } addr).map
    fun (idx, cache) =>
      (load (cache.line idx).data (cfg.offset addr) nb, cache)

def dcacheReadB (cfg : CacheConfig) (cache : DataCache) (addr : Nat) :
    Option (Nat × DataCache) :=
  readInLine cfg cache addr 1

def dcacheReadW (cfg : CacheConfig) (cache : DataCache) (addr : Nat) :
    Option (Nat × DataCache) :=
  if addr % 2 = 0 then readInLine cfg cache addr 2
  else
    (dcacheReadB cfg cache addr).bind fun (y, cache) =>
    (dcacheReadB cfg cache (addr + 1)).map fun (x, cache) =>
      ((x <<< 8) ||| y, cache)

/-- An access that is not aligned is one access unless it starts in the last
word of a line. -/
def dcacheReadL (cfg : CacheConfig) (cache : DataCache) (addr : Nat) :
    Option (Nat × DataCache) :=
  if addr % 4 = 0 then readInLine cfg cache addr 4
  else if cfg.offset addr / 4 ≠ (cfg.lineBytes - 1) / 4 then
    readInLine cfg cache addr 4
  else if addr % 2 = 1 then
    (dcacheReadB cfg cache addr).bind fun (z, cache) =>
    (dcacheReadW cfg cache (addr + 1)).bind fun (y, cache) =>
    (dcacheReadB cfg cache (addr + 3)).map fun (x, cache) =>
      ((x <<< 24) ||| (y <<< 8) ||| z, cache)
  else
    (dcacheReadW cfg cache addr).bind fun (y, cache) =>
    (dcacheReadW cfg cache (addr + 2)).map fun (x, cache) =>
      ((x <<< 16) ||| y, cache)

/-- An aligned write to a line that is present. -/
def writeHit (cfg : CacheConfig) (cache : DataCache) (idx addr nb val : Nat) : Option DataCache :=
  let line := cache.line idx
  let cache := cache.setLine idx { line with data := store line.data (cfg.offset addr) nb val }
  match cfg.policy with
  | .through => some (cache.write addr nb val)
  | .back =>
    let written :=
      if cache.excl then
        ((dcacheInvalidate cfg cache addr).message (addr == addrDbg)).map (·.write addr nb val)
      else
        (cache.setLine idx { cache.line idx with dirty := true }).message (addr == addrDbg)
    written.map (·.write addr nb val)

/-- The line is read for the store, unless nothing is traced. -/
def markStore (cache : DataCache) : DataCache :=
  if cache.trId.isSome then { cache with trId := some true, readSize := 0 }
  else cache

/-- Writes that are not aligned are split.  With write-back, a line that is not
present is read first. -/
def dcacheWrite (cfg : CacheConfig) : Nat → DataCache → Nat → Nat → Nat → Option DataCache
  | 0, _, _, _, _ => none
  | depth + 1, cache, addr, nb, val =>
    if cfg.ramSize ≤ addr then none
    else
      let tag := cfg.tagOf addr
      let ofs := cfg.offset addr
      match dcacheLinePresent cfg cache (cfg.startIdx tag) tag with
      | some idx =>
        if nb = 1 then writeHit cfg cache idx addr nb val
        else if nb = 2 then
          if ofs % 2 = 0 then writeHit cfg cache idx addr nb val
          else
            (dcacheWrite cfg depth cache addr 1 (val &&& 0xff)).bind fun cache =>
            dcacheWrite cfg depth cache (addr + 1) 1 ((val >>> 8) &&& 0xff)
        else if nb = 4 then
          if ofs % 4 = 0 then writeHit cfg cache idx addr nb val
          else if ofs % 2 = 1 then
            (dcacheWrite cfg depth cache addr 1 (val &&& 0xff)).bind fun cache =>
            (dcacheWrite cfg depth cache (addr + 1) 2 ((val >>> 8) &&& 0xffff)).bind fun cache =>
            dcacheWrite cfg depth cache (addr + 3) 1 ((val >>> 24) &&& 0xff)
          else
            (dcacheWrite cfg depth cache addr 2 (val &&& 0xffff)).bind fun cache =>
            dcacheWrite cfg depth cache (addr + 2) 2 ((val >>> 16) &&& 0xffff)
        else none
      | none =>
        match cfg.policy with
        | .through =>
          if nb = 1 then some (cache.write addr nb val)
          else if nb = 2 then
            if ofs % 2 = 0 then some (cache.write addr nb val)
            else
              dcacheWrite cfg depth
                (cache.write addr 1 (val &&& 0xff)) (addr + 1) 1
                ((val >>> 8) &&& 0xff)
          else if nb = 4 then
            if ofs % 4 = 0 then some (cache.write addr nb val)
            else if ofs % 2 = 1 then
              (dcacheWrite cfg depth
                (cache.write addr 1 (val &&& 0xff)) (addr + 1) 2
                ((val >>> 8) &&& 0xffff)).bind fun cache =>
              dcacheWrite cfg depth cache (addr + 3) 1 ((val >>> 24) &&& 0xff)
            else
              dcacheWrite cfg depth
                (cache.write addr 2 (val &&& 0xffff)) (addr + 2) 2
                ((val >>> 16) &&& 0xffff)
          else none
        | .back =>
          (dcacheRead cfg (markStore cache) (cfg.lineStart addr)).bind fun (_, cache) =>
          dcacheWrite cfg depth cache addr nb val

/-- The size of a write. -/
inductive Width where
  | byte
  | half
  | word
deriving DecidableEq, Repr

def Width.bytes : Width → Nat
  | .byte => 1
  | .half => 2
  | .word => 4

inductive CacheOp where
  | write (addr : Nat) (width : Width) (val : Nat)
  | readB (addr : Nat)
  | readW (addr : Nat)
  | readL (addr : Nat)
  | flush (addr : Nat)
  | flushAll
  | invalidate (addr : Nat)
  | invalidateAll
deriving DecidableEq, Repr

/-- An access with the state of the CPU that makes it. -/
structure CacheAccess where
  op : CacheOp
  trId : Option Bool
  excl : Bool
deriving DecidableEq, Repr

/-- What a read returns, and the cache afterwards. -/
def cacheOp (cfg : CacheConfig) (depth : Nat) (cache : DataCache) :
    CacheOp → Option (Option Nat × DataCache)
  | .write addr width val =>
    (dcacheWrite cfg depth cache addr width.bytes val).map fun cache => (none, cache)
  | .readB addr =>
    (dcacheReadB cfg cache addr).map fun (value, cache) =>
      (some value, cache)
  | .readW addr =>
    (dcacheReadW cfg cache addr).map fun (value, cache) =>
      (some value, cache)
  | .readL addr =>
    (dcacheReadL cfg cache addr).map fun (value, cache) =>
      (some value, cache)
  | .flush addr =>
    (dcacheFlush cfg cache addr).map fun cache => (none, cache)
  | .flushAll => some (none, dcacheFlushAll cfg cache)
  | .invalidate addr => some (none, dcacheInvalidate cfg cache addr)
  | .invalidateAll => some (none, dcacheInvalidateAll cfg cache)

def cacheStep (cfg : CacheConfig) (depth : Nat) (cache : DataCache)
    (access : CacheAccess) : Option (Option Nat × DataCache) :=
  cacheOp cfg depth { cache with trId := access.trId, excl := access.excl } access.op

/-- What the reads of a run return. -/
def cacheRun (cfg : CacheConfig) (depth : Nat) :
    DataCache → List CacheAccess → Option (List (Option Nat))
  | _, [] => some []
  | cache, access :: accesses =>
    (cacheStep cfg depth cache access).bind fun (value, cache) =>
    (cacheRun cfg depth cache accesses).map (value :: ·)

/-- `qemu_init_caches`, before a memory with any content. -/
def initCaches (memory : Nat → BitVec 8) (random : Nat → Nat) : DataCache where
  line := fun _ =>
    { valid := false
      dirty := false
      tag := 0x8BADF00D
      data := fun ofs => byteAt 0xDEADBEEF (ofs % 4) }
  memory := memory
  random := random
  trId := none
  excl := false
  readSize := 0

/-- The same access without a cache. -/
def flatOp (memory : Nat → BitVec 8) : CacheOp → Option Nat × (Nat → BitVec 8)
  | .write addr width val => (none, store memory addr width.bytes val)
  | .readB addr => (some (load memory addr 1), memory)
  | .readW addr => (some (load memory addr 2), memory)
  | .readL addr => (some (load memory addr 4), memory)
  | .flush _ => (none, memory)
  | .flushAll => (none, memory)
  | .invalidate _ => (none, memory)
  | .invalidateAll => (none, memory)

def flatRun : (Nat → BitVec 8) → List CacheOp → List (Option Nat)
  | _, [] => []
  | memory, op :: ops =>
    (flatOp memory op).1 :: flatRun (flatOp memory op).2 ops

end Reverse.Rabbits
