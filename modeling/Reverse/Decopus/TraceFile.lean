import Reverse.Decopus.Events

/-!
# The trace file

The plugin `hwetrace_write` keeps for each device the index of its last event
and writes the index of the next one relative to it, in four bits, or after an
`HWE_ID` record.  The loop of `hwetrace_read` undoes this with an array of last
indices of its own and puts containers of one id back together.
-/

namespace Reverse.Decopus

open Wire

/-- The difference is taken in `hwe_id_ind_st`, which has 32 bits. -/
def hweHeadRidCompute (common : HeadCont) (prevId : BitVec 64) : HeadCont × Bool :=
  let diff : BitVec 32 := (common.id.index - prevId).setWidth 32
  if diff.toInt < -8 ∨ diff.toInt > 7 then ({ common with rid := 0 }, false)
  else ({ common with rid := diff.setWidth 4 }, true)

def hweHeadRidZero (common : HeadCont) : HeadCont := { common with rid := 0 }

/-- The constant `BUFFERSIZE` of the writer and `BUFSIZE` of the reader. -/
def bufferSize : Nat := 1000000

/-- The file, the part of the buffer in use, and the index of the last event
of each device. -/
structure Writer where
  file : List Byte
  buffer : List Byte
  lastid : BitVec 8 → BitVec 64

def Writer.start : Writer := ⟨[], [], fun _ => 0⟩

def bufferFlush (writer : Writer) : Writer :=
  { writer with file := writer.file ++ writer.buffer, buffer := [] }

/-- The buffer is flushed if so many bytes would not fit. -/
def Writer.reserve (writer : Writer) (size : Nat) : Writer :=
  if writer.buffer.length + size > bufferSize then bufferFlush writer
  else writer

/-- The buffer is filled up to what `hwe_sizeof` says. -/
def Writer.put (writer : Writer) (cont : Cont) : Writer :=
  { writer with
    buffer := writer.buffer ++ (hweWrite cont).take (hweSizeof cont) }

def Writer.note (writer : Writer) (id : HweId) : Writer :=
  { writer with lastid := Function.update writer.lastid id.devid id.index }

def bufferMain (writer : Writer) (main : Cont) : Writer :=
  let reserved := writer.reserve (hweSizeof main + hweIdSizeof)
  let (common, near) := hweHeadRidCompute main.common (reserved.lastid main.common.id.devid)
  let identified :=
    if near then reserved
    else
      { reserved with
        buffer := reserved.buffer ++ hweIdWrite ⟨common, main.body⟩ }
  (identified.put ⟨common, main.body⟩).note main.common.id

def bufferExt (writer : Writer) (ext : Cont) : Writer :=
  (writer.reserve (hweSizeof ext)).put ⟨hweHeadRidZero ext.common, ext.body⟩

/-- The main container of an event and then its additional ones. -/
def bufferEvent (writer : Writer) (main : Cont) (exts : List Cont) : Writer :=
  exts.foldl bufferExt (bufferMain writer main)

/-- The bytes in the buffer from `bcur` on, how far `bcur` is from the start of
the buffer, and the bytes still in the file. -/
structure Source where
  offset : Nat
  buffered : List Byte
  file : List Byte

namespace Source

def bytes (source : Source) : List Byte := source.buffered ++ source.file

def consume (source : Source) (used : Nat) : Source :=
  ⟨source.offset + used, source.buffered.drop used, source.file⟩

/-- The rest is moved to the start of the buffer and `read` is called.  The
parameter tells how many bytes it delivers, given how many are wanted and those
left in the file. -/
def refill (deliver : Nat → List Byte → Nat) (source : Source) : Source :=
  let count := deliver (bufferSize - source.buffered.length) source.file
  ⟨0, source.buffered ++ source.file.take count, source.file.drop count⟩

end Source

/-- What `read_container` returns: the program may have exited, the file may be
at its end, and `memcpy` may have been called for regions that overlap, which
has no defined result. -/
inductive ReadResult where
  | exit
  | overlap
  | endOfFile
  | read (cont : Cont) (source : Source)

section Reading

-- What `read` delivers, and the register data of the containers read over.
variable (deliver : Nat → List Byte → Nat) (old : Nat → Nat → Word)

def readContainer (previd : List (BitVec 64)) (source : Source) : ReadResult :=
  match hweRead (old source.bytes.length) previd source.buffered with
  | .exit => .exit
  | .done cont used => .read cont (source.consume used)
  | .short =>
    if source.offset < source.buffered.length then .overlap
    else if deliver (bufferSize - source.buffered.length) source.file = 0 then .endOfFile
    else
      let refilled := source.refill deliver
      match hweRead (old source.bytes.length) previd refilled.buffered with
      | .done cont used => .read cont (refilled.consume used)
      | _ => .exit

/-- The array doubles once; an id beyond it is stored outside. -/
def updatePrevid (previd : List (BitVec 64)) (id : HweId) : Option (List (BitVec 64)) :=
  let grown :=
    if previd.length ≤ id.devid.toNat then
      previd ++ List.replicate previd.length 0
    else previd
  if id.devid.toNat < grown.length then
    some (grown.set id.devid.toNat id.index)
  else none

/-- The loop of `main`: `current` has the containers of the event that is
being completed. -/
def readLoop : Nat → List (BitVec 64) → Source → List Cont → Option (List (List Cont))
  | 0, _, _, _ => none
  | fuel + 1, previd, source, current =>
    match readContainer deliver old previd source with
    | .exit | .overlap => none
    | .endOfFile => some (if current = [] then [] else [current])
    | .read cont source => do
        let previd ← updatePrevid previd cont.common.id
        if cont.body = .id then readLoop fuel previd source current
        else
          match current with
          | [] => readLoop fuel previd source [cont]
          | head :: _ =>
            if head.common.id = cont.common.id then
              readLoop fuel previd source (current ++ [cont])
            else
              let events ← readLoop fuel previd source [cont]
              some (current :: events)

/-- The events of a trace file, each with its containers. -/
def readTrace (file : List Byte) : Option (List (List Cont)) :=
  readLoop deliver old (file.length + 1) (List.replicate 16 0) ⟨0, [], file⟩ []

end Reading

end Reverse.Decopus
