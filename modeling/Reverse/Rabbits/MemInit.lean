import Reverse.Library.Runs
import Reverse.Sherlock.MemCreate

/-!
# The dump of the initial memory

The memory of `mem_device.cpp` marks what is written before tracing starts, one
bit for 32 addresses in cells of 2048 addresses.  `create_mem_init` scans the
cells and appends the marked parts of the memory to the file `mem_init`, behind
the sections that the loader has put there.
-/

namespace Reverse.Rabbits

open HexText Sherlock List Option

/-- The part of `mem_device` that is used before tracing starts. -/
structure MemDevice where
  size : Nat
  mem : Nat → Byte
  modMem : Nat → Option (BitVec 64)
  /-- Offsets have 32 bits. -/
  bounded : size ≤ 2 ^ 32

/-- The byte enables of the `switch` in `write`, with `offset_dd` and `mod`. -/
def accessOf (be : Byte) : Option (Nat × Nat) :=
  match be.toNat with
  | 0x01 => some (0, 1)
  | 0x02 => some (1, 1)
  | 0x04 => some (2, 1)
  | 0x08 => some (3, 1)
  | 0x10 => some (4, 1)
  | 0x20 => some (5, 1)
  | 0x40 => some (6, 1)
  | 0x80 => some (7, 1)
  | 0x03 => some (0, 2)
  | 0x0C => some (1, 2)
  | 0x30 => some (2, 2)
  | 0xC0 => some (3, 2)
  | 0x0F => some (0, 4)
  | 0xF0 => some (1, 4)
  | 0xFF => some (0, 8)
  | _ => none

/-- The first lane that is enabled. -/
def firstLane (be : Byte) : Nat :=
  ((List.range 8).find? fun lane => be.getLsbD lane).getD 8

/-- The lane behind the enabled ones from `lane` on. -/
def laneEnd (be : Byte) (lane : Nat) : Nat :=
  ((List.range 8).find? fun other =>
    decide (lane ≤ other) && !be.getLsbD other).getD 8

/-- Where a write starts, how many bytes it has, and the address it marks, all
relative to `ofs`. -/
structure Lanes where
  start : Nat
  count : Nat
  mark : Nat
deriving DecidableEq, Repr

/-- Other byte enables are written lane by lane; `offset_dd` is then the lane
behind the last one. -/
def lanesOf (be : Byte) : Lanes :=
  if be = 0 then ⟨0, 0, 0⟩
  else
    match accessOf be with
    | some (offsetDd, mod) => ⟨offsetDd * mod, mod, offsetDd * mod⟩
    | none =>
      let start := firstLane be
      let stop := laneEnd be start
      ⟨start, stop - start, stop * (stop - start)⟩

structure MemRqst where
  ofs : Word
  be : Byte
  data : Nat → Byte

/-- What a request asks of a memory; too large an offset writes nothing. -/
def MemRqst.lanes (rqst : MemRqst) (size : Nat) : Lanes :=
  if size < rqst.ofs.toNat then ⟨0, 0, 0⟩ else lanesOf rqst.be

def MemRqst.Writes (rqst : MemRqst) (size addr : Nat) : Prop :=
  rqst.ofs.toNat + (rqst.lanes size).start ≤ addr ∧
    addr < rqst.ofs.toNat + (rqst.lanes size).start + (rqst.lanes size).count

instance (rqst : MemRqst) (size addr : Nat) : Decidable (rqst.Writes size addr) :=
  inferInstanceAs (Decidable (_ ∧ _))

def analyseMemMod (modMem : Nat → Option (BitVec 64)) (addr : Word) : Nat → Option (BitVec 64) :=
  let ofsShift := (addr >>> 11).toNat
  let cell := (modMem ofsShift).getD 0
  let ofsMaskShift := 1#64 <<< (addr >>> 5 &&& 0x3f#32).toNat
  Function.update modMem ofsShift (some (cell ||| ofsMaskShift))

/-- `write` while tracing is off; a request that goes beyond the end of the
memory has no defined result. -/
def memWrite (device : MemDevice) (rqst : MemRqst) : Option MemDevice :=
  let lanes := rqst.lanes device.size
  if lanes.count ≠ 0 ∧ device.size < rqst.ofs.toNat + lanes.start + lanes.count then none
  else some { device with
    mem := fun addr =>
      if rqst.Writes device.size addr then rqst.data (addr - rqst.ofs.toNat)
      else device.mem addr
    modMem := analyseMemMod device.modMem (rqst.ofs + BitVec.ofNat 32 lanes.mark) }

/-- The states of `mem_init`. -/
inductive InitState where
  | construct
  | newSection
  | append
  | close
  | destroy
deriving DecidableEq, Repr

/-- The static variables of `mem_init`, and the file. -/
structure MemInit where
  sections : Nat
  sectionSize : Nat
  sectionAddr : Nat
  oldState : InitState
  file : List Byte

def slice (mem : Nat → Byte) (addr size : Nat) : List Byte :=
  (List.range size).map fun index => mem (addr + index)

theorem slice_length (mem : Nat → Byte) (addr size : Nat) :
    (slice mem addr size).length = size := by
  rw [slice, length_map, length_range]

def overwrite (file text : List Byte) : List Byte :=
  text ++ file.drop text.length

def memInit (mem : Nat → Byte) (init : MemInit) (state : InitState)
    (addr : Nat) : MemInit × InitState :=
  match state with
  | .construct =>
    ({ init with
        sections :=
          match scanField (ascii "N_SECTIONS=") init.file with
          | some (sections, _) => sections
          | none => init.sections
        oldState := .construct }, .newSection)
  | .newSection =>
    ({ init with
        sections := init.sections + 1
        sectionSize := 0x1F
        sectionAddr := addr
        oldState := .newSection }, .append)
  | .append =>
    ({ init with
        sectionSize := init.sectionSize + 0x1F
        oldState := .append }, .append)
  | .close =>
    if init.oldState = .newSection ∨ init.oldState = .append then
      ({ init with
          file := overwrite init.file (field (ascii "N_SECTIONS=") init.sections) ++
            field (ascii "SECTION=") init.sections ++
            field (ascii "SIZE=") init.sectionSize ++
            field (ascii "OFFSET=") init.sectionAddr ++
            slice mem init.sectionAddr init.sectionSize
          oldState := .close }, .newSection)
    else ({ init with oldState := .close }, .newSection)
  | .destroy => ({ init with oldState := .destroy }, .destroy)

/-- The loop over the slots of a cell.  The test of a slot is the logical
conjunction `cell && 1 << j`. -/
def scanSlots (mem : Nat → Byte) (cell : BitVec 64) (i : Nat)
    (slots : List Nat) (state : MemInit × InitState) : MemInit × InitState :=
  slots.foldl (fun state j =>
    if cell ≠ 0 ∧ 1#64 <<< j ≠ 0#64 then
      memInit mem state.1 state.2 (i <<< 11 ||| j <<< 5)
    else memInit mem state.1 .close 0) state

/-- One round of the loop over the cells. -/
def scanCell (device : MemDevice) (state : MemInit × InitState) (i : Nat) : MemInit × InitState :=
  match device.modMem i with
  | some cell => scanSlots device.mem cell i (List.range 64) state
  | none => memInit device.mem state.1 .close 0

/-- `create_mem_init` on a file that is there. -/
def createMemInit (device : MemDevice) (file : List Byte) : List Byte :=
  let init := memInit device.mem ⟨0, 0, 0, .construct, file⟩ .construct 0
  let state := (List.range (device.size >>> 11)).foldl (scanCell device) init
  (memInit device.mem state.1 .destroy 0).1.file

/-- The runs of marked cells before a cell: those that have ended, and the one
that reaches it, each with its first cell and its length. -/
def cellRuns (marked : Nat → Bool) : Nat → List (Nat × Nat) × Option (Nat × Nat)
  | 0 => ([], none)
  | i + 1 =>
    let (ended, reaching) := cellRuns marked i
    if marked i then
      (ended, some ((reaching.map fun run => (run.1, run.2 + 1)).getD (i, 1)))
    else (ended ++ reaching.toList, none)

/-- All cells of a run are marked and it starts as early as possible. -/
def StartsRun (marked : Nat → Bool) (first cells : Nat) : Prop :=
  0 < cells ∧ (∀ i < cells, marked (first + i) = true) ∧
    ∀ earlier, first = earlier + 1 → marked earlier = false

theorem StartsRun.unique (run : StartsRun marked first cells) (isStop : first + cells = stop)
    (otherRun : StartsRun marked other otherCells) (otherStop : other + otherCells = stop) :
    first = other ∧ cells = otherCells := by
  obtain ⟨-, all, starts⟩ := run
  obtain ⟨-, otherAll, otherStarts⟩ := otherRun
  have same : first = other := by
    rcases Nat.lt_trichotomy first other with less | same | more
    · have isMarked := all (other - 1 - first) (by omega)
      rw [show first + (other - 1 - first) = other - 1 by omega] at isMarked
      rw [otherStarts (other - 1) (by omega)] at isMarked
      cases isMarked
    · exact same
    · have isMarked := otherAll (first - 1 - other) (by omega)
      rw [show other + (first - 1 - other) = first - 1 by omega] at isMarked
      rw [starts (first - 1) (by omega)] at isMarked
      cases isMarked
  exact ⟨same, by omega⟩

theorem cellRuns_reaching (marked : Nat → Bool) (i : Nat) :
    match (cellRuns marked i).2 with
    | some run => StartsRun marked run.1 run.2 ∧ run.1 + run.2 = i
    | none => ∀ earlier, i = earlier + 1 → marked earlier = false := by
  induction i with
  | zero => nofun
  | succ i ih =>
    rw [cellRuns]
    dsimp only
    cases isMarked : marked i with
    | false =>
      rw [if_neg Bool.false_ne_true]
      intro earlier same
      rw [← Nat.succ.inj same]
      exact isMarked
    | true =>
      rw [if_pos rfl]
      cases reaching : (cellRuns marked i).2 with
      | none =>
        rw [reaching] at ih
        refine ⟨⟨Nat.one_pos, fun offset inside => ?_, ih⟩, rfl⟩
        rw [Nat.lt_one_iff.mp inside]
        exact isMarked
      | some run =>
        rw [reaching] at ih
        obtain ⟨⟨-, all, starts⟩, isStop⟩ := ih
        refine ⟨⟨Nat.succ_pos _, fun offset inside => ?_, starts⟩, congrArg Nat.succ isStop⟩
        rcases Nat.lt_or_eq_of_le (Nat.le_of_lt_succ inside) with
          before | same
        · exact all offset before
        · rw [same]
          change marked (run.1 + run.2) = true
          rw [isStop]
          exact isMarked

/-- The runs that have ended are those with an unmarked cell behind them. -/
theorem mem_cellRuns (marked : Nat → Bool) (i first cells : Nat) :
    (first, cells) ∈ (cellRuns marked i).1 ↔
      StartsRun marked first cells ∧ marked (first + cells) = false ∧ first + cells < i := by
  induction i with
  | zero => exact ⟨nofun, nofun⟩
  | succ i ih =>
    have later : marked (first + cells) = false ∧ first + cells < i + 1 ↔
        (marked (first + cells) = false ∧ first + cells < i) ∨
          (first + cells = i ∧ marked i = false) := by
      constructor
      · rintro ⟨unmarked, less⟩
        rcases Nat.lt_or_eq_of_le (Nat.le_of_lt_succ less) with before | same
        · exact Or.inl ⟨unmarked, before⟩
        · exact Or.inr ⟨same, same ▸ unmarked⟩
      · rintro (⟨unmarked, less⟩ | ⟨same, unmarked⟩)
        · exact ⟨unmarked, Nat.lt_succ_of_lt less⟩
        · rw [same]
          exact ⟨unmarked, Nat.lt_succ_self i⟩
    have reaching := cellRuns_reaching marked i
    rw [later, and_or_left, ← ih, cellRuns]
    dsimp only
    cases isMarked : marked i with
    | true =>
      rw [if_pos rfl]
      exact ⟨Or.inl, fun either => either.elim id fun ⟨_, _, impossible⟩ =>
        nomatch impossible⟩
    | false =>
      rw [if_neg Bool.false_ne_true, mem_append, mem_toList]
      refine or_congr_right ⟨fun isRun => ?_, fun ⟨run, isStop, _⟩ => ?_⟩
      · rw [isRun] at reaching
        exact ⟨reaching.1, reaching.2, rfl⟩
      · cases isRun : (cellRuns marked i).2 with
        | none =>
          rw [isRun] at reaching
          obtain ⟨positive, all, -⟩ := run
          have last := all (cells - 1) (by omega)
          rw [reaching (first + (cells - 1)) (by omega)] at last
          cases last
        | some other =>
          rw [isRun] at reaching
          obtain ⟨sameFirst, sameCells⟩ := run.unique isStop reaching.1 reaching.2
          rw [sameFirst, sameCells]

def MemDevice.marked (device : MemDevice) (i : Nat) : Bool :=
  (device.modMem i).isSome

/-- The section that the dump makes of a run: 31 bytes for each slot. -/
def sectionOf (mem : Nat → Byte) (run : Nat × Nat) : Section where
  ofs := BitVec.ofNat 32 (2048 * run.1)
  bytes := slice mem (2048 * run.1) (1984 * run.2)

/-- The file that the loader has left; it is created empty.  The loader prints
the counts in decimal and not in hexadecimal, so this is its file for fewer than
ten binary images.  The header it writes for an ELF image has no `N_SECTIONS`
and is not modelled. -/
def loaderFile (sections : List Section) : List Byte :=
  if sections = [] then [] else sectionFile sections

/-- No cell of the bitmap is empty. -/
def CellsMarked (modMem : Nat → Option (BitVec 64)) : Prop :=
  ∀ i, ∀ cell ∈ modMem i, cell ≠ 0

theorem CellsMarked.analyse (cells : CellsMarked modMem) (addr : Word) :
    CellsMarked (analyseMemMod modMem addr) := by
  intro i cell isCell
  unfold analyseMemMod at isCell
  by_cases same : i = (addr >>> 11).toNat
  · rw [same, Function.update_self] at isCell
    rw [← some.inj isCell]
    have slot : (addr >>> 5 &&& 0x3f#32).toNat < 64 := by
      rw [BitVec.toNat_and]
      exact Nat.lt_succ_of_le Nat.and_le_right
    intro zero
    have bit := congrArg (fun value => value.getLsbD (addr >>> 5 &&& 0x3f#32).toNat) zero
    rw [BitVec.getLsbD_or, BitVec.getLsbD_shiftLeft, decide_eq_true slot] at bit
    simp at bit
  · rw [Function.update_of_ne same] at isCell
    exact cells i cell isCell

theorem slot_ne_zero (inside : j < 64) : 1#64 <<< j ≠ 0#64 := by
  intro zero
  have bit := congrArg (fun value => value.getLsbD j) zero
  simp [inside] at bit

theorem scanSlots_append (mem : Nat → Byte) (isMarked : cell ≠ 0) (i : Nat)
    (inside : ∀ j ∈ slots, j < 64) (init : MemInit) :
    scanSlots mem cell i slots ({ init with oldState := .append }, .append) =
      ({ init with
          sectionSize := init.sectionSize + 31 * slots.length
          oldState := .append }, .append) := by
  induction slots generalizing init with
  | nil => rfl
  | cons j slots ih =>
    have rest := ih (fun other member =>
      inside other (mem_cons_of_mem _ member))
      { init with sectionSize := init.sectionSize + 31 }
    unfold scanSlots at rest ⊢
    rw [foldl_cons, if_pos ⟨isMarked, slot_ne_zero (inside j mem_cons_self)⟩]
    refine rest.trans ?_
    rw [length_cons, Nat.mul_succ, Nat.add_assoc, Nat.add_comm 31]

theorem scanSlots_start (mem : Nat → Byte) (isMarked : cell ≠ 0) (i : Nat) (init : MemInit) :
    scanSlots mem cell i (List.range 64) (init, .newSection) =
      ({ init with
          sections := init.sections + 1
          sectionSize := 1984
          sectionAddr := 2048 * i
          oldState := .append }, .append) := by
  have slots : List.range 64 = 0 :: 1 :: List.range' 2 62 := by decide
  have inside : ∀ j ∈ List.range' 2 62, j < 64 := by decide
  have rest := scanSlots_append mem isMarked i inside
    { init with
      sections := init.sections + 1
      sectionSize := 62
      sectionAddr := i <<< 11 ||| 0 <<< 5 }
  have address : i <<< 11 ||| 0 <<< 5 = 2048 * i := by
    rw [Nat.zero_shiftLeft, Nat.or_zero, Nat.shiftLeft_eq, Nat.mul_comm]
  unfold scanSlots at rest ⊢
  rw [slots, foldl_cons, foldl_cons,
    if_pos ⟨isMarked, slot_ne_zero (by decide)⟩,
    if_pos ⟨isMarked, slot_ne_zero (by decide)⟩]
  refine rest.trans ?_
  rw [address, length_range']

/-- The state of the dump before a cell. -/
structure Scanned (device : MemDevice) (loaded : List Section)
    (runs : List (Nat × Nat) × Option (Nat × Nat))
    (state : MemInit × InitState) : Prop where
  file : state.1.file =
    loaderFile (loaded ++ runs.1.map (sectionOf device.mem))
  sections : state.1.sections =
    loaded.length + runs.1.length + runs.2.toList.length
  phase : match runs.2 with
    | none => state.2 = .newSection ∧ state.1.oldState ≠ .newSection ∧
        state.1.oldState ≠ .append
    | some run => state.2 = .append ∧ state.1.oldState = .append ∧
        state.1.sectionAddr = 2048 * run.1 ∧
        state.1.sectionSize = 1984 * run.2

theorem field_length (name : List Byte) (value : Nat) :
    (field name value).length = name.length + 9 := by
  unfold field
  rw [length_append, length_append, hexText_length]
  rfl

/-- Closing a section appends it to the file. -/
theorem loaderFile_append (sections : List Section) (content : Section)
    (isAddr : content.ofs.toNat = addr) :
    overwrite (loaderFile sections) (field (ascii "N_SECTIONS=") (sections.length + 1)) ++
      field (ascii "SECTION=") (sections.length + 1) ++
      field (ascii "SIZE=") content.bytes.length ++
      field (ascii "OFFSET=") addr ++ content.bytes = loaderFile (sections ++ [content]) := by
  have texts : overwrite (loaderFile sections)
      (field (ascii "N_SECTIONS=") (sections.length + 1)) =
        field (ascii "N_SECTIONS=") (sections.length + 1) ++ sectionTexts 0 sections := by
    unfold overwrite loaderFile
    congr 1
    by_cases isNil : sections = []
    · rw [if_pos isNil, isNil]
      exact drop_nil
    · rw [if_neg isNil]
      unfold sectionFile
      apply drop_left'
      rw [field_length, field_length]
  have notNil : sections ++ [content] ≠ [] := by simp
  rw [texts, loaderFile, if_neg notNil, sectionFile, sectionTexts_append,
    length_append, length_singleton, Nat.zero_add, sectionTexts,
    sectionTexts, sectionText, isAddr, append_nil]
  simp only [append_assoc]

theorem Scanned.cell (cells : CellsMarked device.modMem) (inside : i < device.size >>> 11)
    (scanned : Scanned device loaded (cellRuns device.marked i) state) :
    Scanned device loaded (cellRuns device.marked (i + 1)) (scanCell device state i) := by
  obtain ⟨file, sections, phase⟩ := scanned
  obtain ⟨init, current⟩ := state
  have reaching := cellRuns_reaching device.marked i
  rw [cellRuns]
  unfold scanCell
  dsimp only
  cases isCell : device.modMem i with
  | some cell =>
    have isMarked : device.marked i = true := by
      unfold MemDevice.marked
      rw [isCell]
      rfl
    have notZero := cells i cell isCell
    rw [if_pos isMarked]
    dsimp only
    cases isRun : (cellRuns device.marked i).2 with
    | none =>
      rw [isRun] at phase sections
      obtain ⟨rfl, -, -⟩ := phase
      rw [scanSlots_start device.mem notZero]
      exact ⟨file, congrArg Nat.succ sections, rfl, rfl, rfl, rfl⟩
    | some run =>
      rw [isRun] at phase sections
      obtain ⟨rfl, opened, isAddr, isSize⟩ := phase
      have slots := scanSlots_append device.mem notZero i
        (fun j (member : j ∈ List.range 64) => mem_range.mp member)
        init
      rw [length_range] at slots
      have same : ({ init with oldState := .append } : MemInit) = init := by
        rw [← opened]
      rw [same] at slots
      rw [slots]
      refine ⟨file, sections, rfl, rfl, isAddr, ?_⟩
      change init.sectionSize + 31 * 64 = 1984 * (run.2 + 1)
      rw [isSize]
      rfl
  | none =>
    have unmarked : device.marked i = false := by
      unfold MemDevice.marked
      rw [isCell]
      rfl
    rw [if_neg (ne_true_of_eq_false unmarked)]
    unfold memInit
    dsimp only
    cases isRun : (cellRuns device.marked i).2 with
    | none =>
      rw [isRun] at phase sections
      obtain ⟨-, notNew, notOpen⟩ := phase
      rw [if_neg (not_or.mpr ⟨notNew, notOpen⟩)]
      refine ⟨?_, ?_, rfl, nofun, nofun⟩
      · rw [toList_none, append_nil]
        exact file
      · rw [toList_none, append_nil]
        exact sections
    | some run =>
      rw [isRun] at phase sections reaching
      obtain ⟨-, opened, isAddr, isSize⟩ := phase
      rw [if_pos (Or.inr opened)]
      have below : 2048 * run.1 < 2 ^ 32 := by
        have bounded := device.bounded
        rw [Nat.shiftRight_eq_div_pow] at inside
        have reach := reaching.2
        have positive := reaching.1.1
        omega
      have appended := loaderFile_append
        (loaded ++ (cellRuns device.marked i).1.map (sectionOf device.mem))
        (sectionOf device.mem run) (Nat.mod_eq_of_lt below)
      refine ⟨?_, ?_, rfl, nofun, nofun⟩
      · rw [toList_some, map_append, ← append_assoc]
        refine Eq.trans ?_ appended
        have number : (loaded ++ (cellRuns device.marked i).1.map
            (sectionOf device.mem)).length + 1 = init.sections := by
          rw [length_append, length_map]
          exact sections.symm
        have size : (sectionOf device.mem run).bytes.length =
            init.sectionSize := by
          rw [sectionOf, slice_length]
          exact isSize.symm
        rw [number, size, file, isAddr, isSize]
        rfl
      · rw [toList_some, length_append]
        exact sections

/-- The sections that the dump appends. -/
def MemDevice.dumped (device : MemDevice) : List Section :=
  (cellRuns device.marked (device.size >>> 11)).1.map (sectionOf device.mem)

/-- The dump appends a section for every run of marked cells that ends before
the last cell. -/
theorem createMemInit_eq (cells : CellsMarked device.modMem) (fits : loaded.length < 16 ^ 8) :
    createMemInit device (loaderFile loaded) = loaderFile (loaded ++ device.dumped) := by
  have scan : ∀ i ≤ device.size >>> 11,
      Scanned device loaded (cellRuns device.marked i)
        ((List.range i).foldl (scanCell device)
          (memInit device.mem ⟨0, 0, 0, .construct, loaderFile loaded⟩ .construct 0)) := by
    intro i
    induction i with
    | zero =>
      intro _
      refine ⟨congrArg loaderFile (append_nil _).symm, ?_, rfl, nofun, nofun⟩
      change (match scanField (ascii "N_SECTIONS=") (loaderFile loaded) with
        | some (sections, _) => sections
        | none => 0) = loaded.length
      unfold loaderFile
      by_cases isNil : loaded = []
      · rw [if_pos isNil, isNil]
        rfl
      · rw [if_neg isNil, sectionFile, scanField_field _ _ (solid_sectionTexts 0 loaded)]
        exact Nat.mod_eq_of_lt fits
    | succ i ih =>
      intro inside
      rw [range_succ, foldl_append]
      exact (ih (Nat.le_of_succ_le inside)).cell cells inside
  exact (scan _ (Nat.le_refl _)).file

/-- The sections in the order in which they are loaded. -/
def loadAll (table : HashTable) (sections : List Section) : HashTable :=
  sections.foldl (fun table content =>
    loadBytes table content.ofs content.bytes) table

/-- The dump has a byte: it lies in the first 31/32 of a run that ends. -/
def MemDevice.Dumped (device : MemDevice) (addr : Nat) : Prop :=
  ∃ first cells, StartsRun device.marked first cells ∧
    device.marked (first + cells) = false ∧
    first + cells < device.size >>> 11 ∧
    2048 * first ≤ addr ∧ addr < 2048 * first + 1984 * cells

theorem slice_getD (mem : Nat → Byte) (start size index : Nat) :
    (slice mem start size).getD index 0 = if index < size then mem (start + index) else 0 := by
  unfold slice
  rw [getD_eq_getElem?_getD, List.getElem?_map]
  split
  · next inside => rw [List.getElem?_range inside]; rfl
  · next outside =>
      rw [List.getElem?_eq_none (by rw [length_range]; omega)]
      rfl

theorem loadAll_slices {runs : List (Nat × Nat)}
    (fits : ∀ run ∈ runs, 2048 * run.1 + 1984 * run.2 ≤ 2 ^ 32) (table : HashTable) (key : Word) :
    ((loadAll table (runs.map (sectionOf mem))).get key).value =
      if mem key.toNat ≠ 0 ∧ ∃ run ∈ runs, 2048 * run.1 ≤ key.toNat ∧
          key.toNat < 2048 * run.1 + 1984 * run.2 then
        (mem key.toNat).setWidth 32
      else (table.get key).value := by
  induction runs using List.reverseRecOn with
  | nil =>
    rw [if_neg (fun both => by
      obtain ⟨-, run, impossible, -⟩ := both
      nomatch impossible)]
    rfl
  | append_singleton runs last ih =>
    have lastFits := fits last (mem_append_right _ (mem_singleton.mpr rfl))
    have earlier := ih fun run member =>
      fits run (mem_append_left _ member)
    unfold loadAll at earlier ⊢
    rw [map_append, foldl_append]
    refine (loadBytes_value (by rw [sectionOf, slice_length]; exact lastFits) _ key).trans ?_
    rw [earlier, sectionOf, slice_getD]
    by_cases zero : mem key.toNat = 0
    · have skipped : ¬(2048 * last.1 ≤ key.toNat ∧
          (if key.toNat - 2048 * last.1 < 1984 * last.2 then
            mem (2048 * last.1 + (key.toNat - 2048 * last.1)) else 0) ≠ 0) := by
        rintro ⟨atLeast, notZero⟩
        rw [Nat.add_sub_cancel' atLeast, zero, ite_self] at notZero
        exact notZero rfl
      rw [if_neg skipped, if_neg (fun both => both.1 zero), if_neg (fun both => both.1 zero)]
    · have member : (∃ run ∈ runs ++ [last], 2048 * run.1 ≤ key.toNat ∧
          key.toNat < 2048 * run.1 + 1984 * run.2) ↔
          (2048 * last.1 ≤ key.toNat ∧ key.toNat < 2048 * last.1 + 1984 * last.2) ∨
          ∃ run ∈ runs, 2048 * run.1 ≤ key.toNat ∧ key.toNat < 2048 * run.1 + 1984 * run.2 := by
        constructor
        · rintro ⟨run, member, inside⟩
          rcases mem_append.mp member with isOld | isLast
          · exact Or.inr ⟨run, isOld, inside⟩
          · rw [mem_singleton.mp isLast] at inside
            exact Or.inl inside
        · rintro (inside | ⟨run, isOld, inside⟩)
          · exact ⟨last, mem_append_right _ (mem_singleton.mpr rfl), inside⟩
          · exact ⟨run, mem_append_left _ isOld, inside⟩
      by_cases here : 2048 * last.1 ≤ key.toNat ∧ key.toNat < 2048 * last.1 + 1984 * last.2
      · rw [if_pos (show key.toNat - 2048 * last.1 < 1984 * last.2 by omega),
          Nat.add_sub_cancel' here.1, if_pos ⟨here.1, zero⟩,
          if_pos ⟨zero, member.mpr (Or.inl here)⟩]
      · rw [if_neg]
        · exact if_congr (and_congr_right fun _ =>
            (member.trans (or_iff_right here)).symm) rfl rfl
        · rintro ⟨atLeast, notZero⟩
          rw [if_neg (by omega)] at notZero
          exact notZero rfl

theorem MemDevice.dumped_value (device : MemDevice) (table : HashTable) (key : Word) :
    ((loadAll table device.dumped).get key).value = (device.mem key.toNat).setWidth 32 ↔
      (device.mem key.toNat ≠ 0 ∧ device.Dumped key.toNat) ∨
        (table.get key).value = (device.mem key.toNat).setWidth 32 := by
  have ended := mem_cellRuns device.marked (device.size >>> 11)
  have fits : ∀ run ∈ (cellRuns device.marked (device.size >>> 11)).1,
      2048 * run.1 + 1984 * run.2 ≤ 2 ^ 32 := by
    intro run member
    have below := ((ended run.1 run.2).mp member).2.2
    have bounded := device.bounded
    rw [Nat.shiftRight_eq_div_pow] at below
    omega
  have dumped : (∃ run ∈ (cellRuns device.marked (device.size >>> 11)).1,
      2048 * run.1 ≤ key.toNat ∧ key.toNat < 2048 * run.1 + 1984 * run.2) ↔
      device.Dumped key.toNat := by
    constructor
    · rintro ⟨run, member, inside⟩
      obtain ⟨starts, unmarked, below⟩ := (ended run.1 run.2).mp member
      exact ⟨run.1, run.2, starts, unmarked, below, inside⟩
    · rintro ⟨first, cells, starts, unmarked, below, inside⟩
      exact ⟨(first, cells), (ended first cells).mpr ⟨starts, unmarked, below⟩, inside⟩
  rw [MemDevice.dumped, loadAll_slices fits]
  split
  · next both =>
      exact ⟨fun _ => Or.inl ⟨both.1, dumped.mp both.2⟩, fun _ => rfl⟩
  · next neither =>
      refine ⟨Or.inr, fun either => either.elim (fun both => ?_) id⟩
      exact absurd ⟨both.1, dumped.mpr both.2⟩ neither

/-- The bytes that requests have written. -/
def Modified (rqsts : List MemRqst) (size addr : Nat) : Prop :=
  ∃ rqst ∈ rqsts, rqst.Writes size addr

theorem memWrites_cells {rqsts : List MemRqst} (cells : CellsMarked start.modMem)
    (run : rqsts.foldlM memWrite start = some device) :
    CellsMarked device.modMem := by
  refine Runs.foldlM_keeps (fun device => CellsMarked device.modMem) ?_ cells run
  intro rqst before middle _ marked written
  unfold memWrite at written
  dsimp only at written
  split at written
  · cases written
  · cases written
    exact marked.analyse _

/-- A byte is loaded with what the memory held when tracing started. -/
def ReadBack (table : HashTable) (loaded : List Section) (device : MemDevice)
    (addr : Word) : Prop :=
  ∃ later, memCreate table (createMemInit device (loaderFile loaded)) = some later ∧
    (later.get addr).value = (device.mem addr.toNat).setWidth 32

/-- There is a section to load, and the byte is dumped and not zero, or the
sections of the loader already have it. -/
def Kept (table : HashTable) (loaded : List Section) (device : MemDevice) (addr : Word) : Prop :=
  loaded ++ device.dumped ≠ [] ∧
    ((device.mem addr.toNat ≠ 0 ∧ device.Dumped addr.toNat) ∨
      ((loadAll table loaded).get addr).value = (device.mem addr.toNat).setWidth 32)

theorem readBack_iff (cells : CellsMarked device.modMem)
    (readable : Readable (loaded ++ device.dumped)) (table : HashTable) (addr : Word) :
    ReadBack table loaded device addr ↔ Kept table loaded device addr := by
  have count : loaded.length < 16 ^ 8 := by
    have all := readable.count
    rw [length_append] at all
    omega
  unfold ReadBack Kept
  rw [createMemInit_eq cells count, loaderFile]
  by_cases isNil : loaded ++ device.dumped = []
  · rw [if_pos isNil]
    constructor
    · rintro ⟨later, impossible, -⟩
      cases impossible
    · intro both
      exact absurd isNil both.1
  · rw [if_neg isNil, memCreate_sectionFile readable, foldl_append, ← MemDevice.dumped_value]
    constructor
    · rintro ⟨later, isLater, value⟩
      cases isLater
      exact ⟨isNil, value⟩
    · rintro ⟨-, value⟩
      exact ⟨_, rfl, value⟩

/-- For files that can be read back, the bytes written before tracing are
loaded exactly when the dump or the loader has kept each of them. -/
theorem mem_init_round_trip_iff (table : HashTable) (loaded : List Section)
    {start device : MemDevice} (fresh : start.modMem = fun _ => none) {rqsts : List MemRqst}
    (run : rqsts.foldlM memWrite start = some device)
    (readable : Readable (loaded ++ device.dumped)) :
    (∀ addr : Word, Modified rqsts start.size addr.toNat → ReadBack table loaded device addr) ↔
      ∀ addr : Word, Modified rqsts start.size addr.toNat → Kept table loaded device addr := by
  have cells : CellsMarked device.modMem := by
    apply memWrites_cells _ run
    rw [fresh]
    nofun
  exact forall₂_congr fun addr _ => readBack_iff cells readable table addr

def twoCells : MemDevice where
  size := 4096
  mem := fun _ => 0
  modMem := fun _ => none
  bounded := by decide

def sevens (ofs : Word) (be : Byte) : MemRqst := ⟨ofs, be, fun _ => 7⟩

theorem solid_slice (solid : isSpace (mem addr) = false) (size : Nat) :
    Solid (slice mem addr size) := by
  cases size with
  | zero => nofun
  | succ size =>
    intro byte isHead
    rw [slice, range_succ_eq_map] at isHead
    rw [← some.inj isHead]
    exact solid

/-- One marked cell and one that is not: the dump is one section. -/
theorem dumped_first_cell {device : MemDevice}
    (size : device.size >>> 11 = 2) (marked : device.marked 0 = true)
    (unmarked : device.marked 1 = false) :
    [] ++ device.dumped = [sectionOf device.mem (0, 1)] := by
  rw [nil_append, MemDevice.dumped, size, cellRuns, cellRuns]
  dsimp only
  rw [marked, unmarked]
  rfl

theorem readable_first_cell (solid : isSpace (mem 0) = false) :
    Readable [sectionOf mem (0, 1)] := by
  refine ⟨?_, ?_, ?_⟩
  · rw [length_singleton]
    decide
  · intro content member
    rw [mem_singleton.mp member, sectionOf, slice_length]
    decide
  · intro content member
    rw [mem_singleton.mp member, sectionOf]
    apply solid_slice
    exact solid

theorem mem_init_round_trip_iff_first_byte :
    ∃ device, [sevens 0 1].foldlM memWrite twoCells = some device ∧
      Readable ([] ++ device.dumped) ∧
      ∀ addr : Word, Modified [sevens 0 1] twoCells.size addr.toNat →
        ReadBack ⟨fun _ _ => none⟩ [] device addr := by
  obtain ⟨device, run, size, marked, unmarked, value⟩ :
      ∃ device, [sevens 0 1].foldlM memWrite twoCells = some device ∧
        device.size >>> 11 = 2 ∧ device.marked 0 = true ∧
        device.marked 1 = false ∧ device.mem 0 = 7 :=
    ⟨_, rfl, rfl, rfl, rfl, rfl⟩
  have isDumped := dumped_first_cell size marked unmarked
  have readable : Readable ([] ++ device.dumped) := by
    rw [isDumped]
    apply readable_first_cell
    rw [value]
    rfl
  refine ⟨device, run, readable, (mem_init_round_trip_iff _ [] rfl run readable).mpr ?_⟩
  rintro addr ⟨rqst, member, -, below⟩
  rw [mem_singleton.mp member] at below
  have isZero : addr.toNat = 0 := Nat.lt_one_iff.mp below
  have starts : StartsRun device.marked 0 1 := by
    refine ⟨Nat.one_pos, fun i inside => ?_, nofun⟩
    rw [Nat.lt_one_iff.mp inside]
    exact marked
  refine ⟨?_, Or.inl ⟨?_, 0, 1, starts, unmarked, ?_, ?_, ?_⟩⟩
  · rw [isDumped]
    exact cons_ne_nil _ _
  · rw [isZero, value]
    decide
  · rw [size]
    decide
  · exact Nat.zero_le _
  · rw [isZero]
    decide

/-- The last byte of a cell is written and marked, and the section that is
dumped for the cell ends before it. -/
theorem last_byte_of_cell_lost :
    ∃ device, [sevens 2040 0x80].foldlM memWrite twoCells = some device ∧
      Modified [sevens 2040 0x80] twoCells.size 2047 ∧
      device.mem 2047 = 7 ∧
      ∃ later, memCreate ⟨fun _ _ => none⟩ (createMemInit device []) =
          some later ∧ (later.get 2047).value = 0 := by
  obtain ⟨device, run, size, marked, unmarked, first, value⟩ :
      ∃ device, [sevens 2040 0x80].foldlM memWrite twoCells = some device ∧
        device.size >>> 11 = 2 ∧ device.marked 0 = true ∧
        device.marked 1 = false ∧ device.mem 0 = 0 ∧ device.mem 2047 = 7 :=
    ⟨_, rfl, rfl, rfl, rfl, rfl, rfl⟩
  have cells : CellsMarked twoCells.modMem := fun i cell impossible =>
    nomatch mem_def.mp impossible
  have file := createMemInit_eq (memWrites_cells cells run)
    (show ([] : List Section).length < 16 ^ 8 by decide)
  have readable : Readable [sectionOf device.mem (0, 1)] := by
    apply readable_first_cell
    rw [first]
    rfl
  rw [dumped_first_cell size marked unmarked, loaderFile, if_pos rfl,
    loaderFile, if_neg (cons_ne_nil _ _)] at file
  refine ⟨device, run, ⟨_, mem_singleton.mpr rfl, by decide⟩, value, _,
    by rw [file]; exact memCreate_sectionFile readable _, ?_⟩
  have loaded := @loadAll_slices device.mem [(0, 1)] (by decide) ⟨fun _ _ => none⟩ 2047
  rw [if_neg (fun both => absurd both.2 (by decide))] at loaded
  exact loaded

end Reverse.Rabbits
