import Reverse.Decopus.EventChain

/-!
# Accesses that are spread over containers

A memory access that is wider than the data of a container goes on in the next
ones, which may have been linked for references.  The containers of an access
come first in the chain and cover its bytes in pieces of 256, however often
the width is changed.
-/

namespace Reverse.Decopus

open List hiding head
open BitVec

theorem widthField_toNat (positive : 1 ≤ width) (bounded : width ≤ hweMemDataMax) :
    (widthField width).toNat = width - 1 := by
  unfold hweMemDataMax at bounded
  simp only [widthField, toNat_setWidth, toNat_sub, toNat_ofNat, ofNat_eq_ofNat]
  omega

/-- The containers cover the bytes of an access, those behind them are empty. -/
def Tiled (body : Mem32) : Word → Nat → List Part → Prop
  | _, _, [] => False
  | addr, width, cont :: rest =>
    cont.type = hweMem32 ∧
      cont.mem32 =
        { body with
          addr := addr, width := widthField (min hweMemDataMax width) } ∧
      if width ≤ hweMemDataMax then
        ∀ other ∈ rest, other.type = hweNull
      else Tiled body (addr + 256) (width - hweMemDataMax) rest

/-- A container of the access at an address, whatever its width is. -/
def Part.Fits (cont : Part) (body : Mem32) (addr : Word) : Prop :=
  cont.type = hweMem32 ∧
    ∀ width, { cont.mem32 with width := width } =
      { body with addr := addr, width := width }

/-- Containers of the access from an address on, then empty ones. -/
def Joined (body : Mem32) : Word → List Part → Prop
  | _, [] => True
  | addr, cont :: rest =>
    (cont.Fits body addr ∧ Joined body (addr + 256) rest) ∨
      ∀ other ∈ cont :: rest, other.type = hweNull

theorem Joined.of_empty (empty : ∀ other ∈ chain, other.type = hweNull) (addr : Word) :
    Joined body addr chain := by
  cases chain with
  | nil => trivial
  | cons cont rest => exact Or.inr empty

theorem Joined.tail (joined : Joined body addr chain) : Joined body (addr + 256) chain.tail := by
  cases chain with
  | nil => trivial
  | cons cont rest =>
    rcases joined with ⟨_, behind⟩ | empty
    · exact behind
    · exact .of_empty (fun other member => empty other (by simp_all)) _

theorem Tiled.joined (tiled : Tiled body addr width chain) : Joined body addr chain := by
  induction chain generalizing addr width with
  | nil => trivial
  | cons cont rest ih =>
    obtain ⟨type, attributes, behind⟩ := tiled
    refine Or.inl ⟨⟨type, by simp [attributes]⟩, ?_⟩
    split at behind
    · exact .of_empty behind _
    · exact ih behind

theorem clearTail_empty (joined : Joined body addr chain) :
    ∀ other ∈ clearTail chain, other.type = hweNull := by
  induction chain generalizing addr with
  | nil => simp [clearTail]
  | cons cont rest ih =>
    unfold clearTail
    rcases joined with ⟨fits, behind⟩ | empty
    · rw [if_neg (by rw [fits.1]; decide)]
      intro other member
      rcases mem_cons.mp member with rfl | later
      · rfl
      · exact ih behind other later
    · rw [if_pos (empty cont (by simp))]
      exact empty

theorem Joined.join (joined : Joined body addr chain)
    (copied : ∀ width, { head with addr := addr, width := width } =
      { body with addr := addr, width := width }) (pool : Pool)
    (pos : Nat) :
    ((current pool pos chain).join head addr).Fits body addr := by
  have converted : ∀ cont : Part, cont.type = hweNull → (cont.join head addr).Fits body addr := by
    intro cont empty
    rw [Part.join, if_neg (by rw [empty]; decide)]
    exact ⟨rfl, copied⟩
  cases chain with
  | nil => exact converted _ rfl
  | cons cont rest =>
    rcases joined with ⟨fits, _⟩ | empty
    · rw [Part.join, if_pos (by exact fits.1)]
      exact fits
    · exact converted _ (empty cont (by simp))

theorem setWidthFrom_tiled (pool : Pool)
    (copied : ∀ addr width, { head with addr := addr, width := width } =
      { body with addr := addr, width := width }) (fits : cont.Fits body addr)
    (joined : Joined body (addr + 256) rest) :
    Tiled body addr width (setWidthFrom pool pos cont rest head addr width) := by
  induction pos, cont, rest, addr, width using setWidthFrom.induct pool head with
  | case1 pos cont rest addr width small =>
    rw [setWidthFrom, if_pos small]
    refine ⟨fits.1, ?_, ?_⟩
    · rw [Nat.min_eq_right small]
      exact fits.2 _
    · rw [if_pos small]
      exact clearTail_empty joined
  | case2 pos cont rest addr width large ih =>
    rw [setWidthFrom, if_neg large]
    refine ⟨fits.1, ?_, ?_⟩
    · rw [Nat.min_eq_left (Nat.le_of_not_le large)]
      exact fits.2 _
    · rw [if_neg large]
      exact ih (joined.join (copied _) pool _) joined.tail

theorem Tiled.setWidth (tiled : Tiled body addr width chain) (pool : Pool) (next : Nat) :
    Tiled body addr next (hweMem32SetWidth pool chain next) := by
  cases chain with
  | nil => exact tiled
  | cons cont rest =>
    have behind : Joined body (addr + 256) rest := tiled.joined.tail
    obtain ⟨type, attributes, _⟩ := tiled
    have same : cont.mem32.addr = addr := by rw [attributes]
    rw [hweMem32SetWidth, same]
    refine setWidthFrom_tiled pool ?_ ⟨type, ?_⟩ behind
    · simp [Part.setWidth, attributes]
    · simp [attributes]

theorem widthBehind_empty (empty : ∀ other ∈ chain, other.type = hweNull) :
    widthBehind chain = 0 := by
  cases chain with
  | nil => rfl
  | cons cont rest =>
    rw [widthBehind, if_neg]
    rw [empty cont (by simp)]
    decide

theorem Tiled.widthBehind_eq (tiled : Tiled body addr width chain)
    (positive : 1 ≤ width) : widthBehind chain = width := by
  induction chain generalizing addr width with
  | nil => exact tiled.elim
  | cons cont rest ih =>
    obtain ⟨type, attributes, behind⟩ := tiled
    rw [widthBehind, if_pos type, attributes,
      widthField_toNat (by unfold hweMemDataMax; omega) (Nat.min_le_left _ _)]
    split at behind
    · next small =>
        rw [widthBehind_empty behind]
        omega
    · next large =>
        rw [ih behind (by omega)]
        unfold hweMemDataMax at *
        omega

/-- Both ways of `HWE_MEM32_inc_width` widen the access and return the width
before. -/
theorem Tiled.incWidth (tiled : Tiled body addr width chain)
    (positive : 1 ≤ width) (pool : Pool) (wider : 1 ≤ inc) (bounded : width + inc < 2 ^ 32) :
    Tiled body addr (width + inc) (hweMem32IncWidth pool chain inc).1 ∧
      (hweMem32IncWidth pool chain inc).2 = width := by
  cases chain with
  | nil => exact tiled.elim
  | cons cont rest =>
    have total := tiled.widthBehind_eq positive
    have widened := tiled.setWidth pool (width + inc)
    obtain ⟨type, attributes, behind⟩ := tiled
    have field : cont.mem32.width.toNat = min hweMemDataMax width - 1 := by
      rw [attributes]
      exact widthField_toNat (by unfold hweMemDataMax; omega) (Nat.min_le_left _ _)
    rw [widthBehind, if_pos type] at total
    unfold hweMem32IncWidth
    dsimp only
    split
    · next single =>
        -- the sum does not wrap around, so that the head has room
        have small : width + inc ≤ hweMemDataMax := by
          unfold hweMemDataMax at *
          omega
        refine ⟨⟨type, ?_, ?_⟩, ?_⟩
        · have sum : cont.mem32.width + BitVec.ofNat 8 inc = widthField (width + inc) := by
            apply eq_of_toNat_eq
            rw [toNat_add, field, toNat_ofNat, widthField_toNat (by omega) small]
            unfold hweMemDataMax at *
            omega
          rw [Nat.min_eq_right small, sum, attributes]
        · rw [if_pos (by omega)] at behind ⊢
          exact behind
        · unfold hweMemDataMax at *
          omega
    · have before : width < 2 ^ 32 := by omega
      rw [total, Nat.mod_eq_of_lt before, Nat.mod_eq_of_lt bounded]
      exact ⟨widened, rfl⟩

theorem Tiled.extend (tiled : Tiled body addr width chain) (empty : cont.type = hweNull) :
    Tiled body addr width (chain ++ [cont]) := by
  induction chain generalizing addr width with
  | nil => exact tiled.elim
  | cons head rest ih =>
    obtain ⟨type, attributes, behind⟩ := tiled
    refine ⟨type, attributes, ?_⟩
    split at behind
    · next small =>
        rw [if_pos small]
        intro other member
        rcases mem_append.mp member with linked | last
        · exact behind other linked
        · rw [mem_singleton.mp last, empty]
    · next large =>
        rw [if_neg large]
        exact ih behind

theorem mem32Fill_tiled (pool : Pool) (body : Mem32)
    (empty : ∀ other ∈ chain.tail, other.type = hweNull) :
    Tiled body addr width (mem32Fill pool pos chain body addr width) := by
  induction pos, chain, addr, width using mem32Fill.induct pool body with
  | case1 pos chain addr width small =>
    rw [mem32Fill, if_pos small]
    refine ⟨rfl, ?_, ?_⟩
    · rw [Nat.min_eq_right small]
      rfl
    · rw [if_pos small]
      exact empty
  | case2 pos chain addr width large ih =>
    rw [mem32Fill, if_neg large]
    refine ⟨rfl, ?_, ?_⟩
    · rw [Nat.min_eq_left (Nat.le_of_not_le large)]
      rfl
    · rw [if_neg large]
      apply ih
      exact fun other member => empty other (mem_of_mem_tail member)

def byteAt (chain : List Part) (index : Nat) : Option (BitVec 8) :=
  chain[index / hweMemDataMax]?.map fun cont =>
    cont.data (index % hweMemDataMax)

theorem byteAt_cons (cont : Part) (rest : List Part) (index : Nat) :
    byteAt (cont :: rest) index =
      if index < hweMemDataMax then some (cont.data index)
      else byteAt rest (index - hweMemDataMax) := by
  unfold byteAt hweMemDataMax
  split
  · next inside =>
      rw [Nat.div_eq_of_lt inside, Nat.mod_eq_of_lt inside]
      rfl
  · next outside =>
      have quotient : index / 256 = (index - 256) / 256 + 1 := by omega
      have remainder : index % 256 = (index - 256) % 256 := by omega
      rw [quotient, remainder, List.getElem?_cons_succ]

theorem Tiled.covers (tiled : Tiled body addr width chain) :
    width ≤ hweMemDataMax * chain.length := by
  induction chain generalizing addr width with
  | nil => exact tiled.elim
  | cons cont rest ih =>
    obtain ⟨_, _, behind⟩ := tiled
    rw [length_cons, Nat.mul_succ]
    split at behind
    · next small => exact Nat.le_add_left_of_le small
    · exact Nat.sub_le_iff_le_add.mp (ih behind)

theorem byteAt_setByte (inside : index < hweMemDataMax * chain.length)
    (b : BitVec 8) (other : Nat) :
    byteAt (hweMem32SetByte chain index b) other =
      if other = index then some b else byteAt chain other := by
  induction chain generalizing index other with
  | nil => exact absurd inside (Nat.not_lt_zero index)
  | cons cont rest ih =>
    rw [length_cons, Nat.mul_succ] at inside
    unfold hweMem32SetByte
    split
    · next outside =>
        rw [byteAt_cons, byteAt_cons, ih (by omega)]
        by_cases here : other < hweMemDataMax
        · rw [if_pos here, if_pos here, if_neg (by omega)]
        · have same : other - hweMemDataMax = index - hweMemDataMax ↔ other = index := by omega
          simp only [if_neg here, same]
    · rw [byteAt_cons, byteAt_cons]
      dsimp only
      rw [Function.update_apply]
      split <;> split <;> first | rfl | omega

theorem setDataBehind_empty (empty : ∀ other ∈ chain, other.type = hweNull)
    (data : Nat → BitVec 8) : setDataBehind chain data = chain := by
  cases chain with
  | nil => rfl
  | cons cont rest =>
    rw [setDataBehind, if_neg]
    rw [empty cont (by simp)]
    decide

/-- `HWE_MEM32_set_data` fills exactly the bytes of the access. -/
theorem Tiled.byteAt_setDataBehind (tiled : Tiled body addr width chain)
    (positive : 1 ≤ width) (data : Nat → BitVec 8) (index : Nat) :
    byteAt (setDataBehind chain data) index =
      if index < width then some (data index) else byteAt chain index := by
  induction chain generalizing addr width data index with
  | nil => exact tiled.elim
  | cons cont rest ih =>
    obtain ⟨type, attributes, behind⟩ := tiled
    have field : cont.mem32.width.toNat = min hweMemDataMax width - 1 := by
      rw [attributes]
      exact widthField_toNat (by unfold hweMemDataMax; omega) (Nat.min_le_left _ _)
    rw [setDataBehind, if_pos type, byteAt_cons, byteAt_cons]
    by_cases here : index < hweMemDataMax
    · have reached : index ≤ cont.mem32.width.toNat ↔ index < width := by
        omega
      simp only [if_pos here, Part.setData, reached]
      split <;> rfl
    · rw [if_neg here, if_neg here]
      split at behind
      · next small =>
          rw [if_neg (show ¬ index < width by omega), setDataBehind_empty behind, ite_self]
      · next large =>
          have full : cont.mem32.width = 255 := by
            apply eq_of_toNat_eq
            rw [field]
            unfold hweMemDataMax at *
            change _ = 255
            omega
          have same : index - hweMemDataMax < width - hweMemDataMax ↔ index < width := by omega
          rw [if_pos full, ih behind (by omega), Nat.sub_add_cancel (Nat.not_lt.mp here)]
          simp only [same]

theorem Tiled.setData_eq (tiled : Tiled body addr width chain) (data : Nat → BitVec 8) :
    hweMem32SetData chain data = setDataBehind chain data := by
  cases chain with
  | nil => rfl
  | cons cont rest => rw [setDataBehind, if_pos tiled.1, hweMem32SetData]

/-- The containers of an access of some width, by their positions: each is at
its address, all but the last one are full, and those behind are empty. -/
structure Tiles (chain : List Part) (body : Mem32) (width : Nat) : Prop where
  tile : ∀ index, hweMemDataMax * index < width →
    ∃ cont, chain[index]? = some cont ∧ cont.type = hweMem32 ∧
      cont.mem32 =
        { body with
          addr := body.addr + BitVec.ofNat 32 (hweMemDataMax * index)
          width := BitVec.ofNat 8
            (min hweMemDataMax (width - hweMemDataMax * index) - 1) }
  behind : ∀ index cont, width ≤ hweMemDataMax * index →
    chain[index]? = some cont → cont.type = hweNull

theorem widthField_eq (positive : 1 ≤ width) :
    widthField (min hweMemDataMax width) = BitVec.ofNat 8 (min hweMemDataMax width - 1) := by
  apply eq_of_toNat_eq
  rw [widthField_toNat (by unfold hweMemDataMax; omega) (Nat.min_le_left _ _), toNat_ofNat]
  unfold hweMemDataMax
  omega

theorem Tiled.tile (tiled : Tiled body addr width chain) (index : Nat)
    (inside : hweMemDataMax * index < width) :
    ∃ cont, chain[index]? = some cont ∧ cont.type = hweMem32 ∧
      cont.mem32 =
        { body with
          addr := addr + BitVec.ofNat 32 (hweMemDataMax * index)
          width := BitVec.ofNat 8 (min hweMemDataMax (width - hweMemDataMax * index) - 1) } := by
  induction chain generalizing addr width index with
  | nil => exact tiled.elim
  | cons cont rest ih =>
    obtain ⟨type, attributes, behind⟩ := tiled
    cases index with
    | zero =>
      refine ⟨cont, rfl, type, ?_⟩
      rw [attributes, widthField_eq (by omega)]
      simp
    | succ index =>
      rw [Nat.mul_succ] at inside ⊢
      rw [if_neg (by omega)] at behind
      have place :
          addr + 256 + BitVec.ofNat 32 (hweMemDataMax * index) =
            addr + BitVec.ofNat 32 (hweMemDataMax * index + hweMemDataMax) := by
        rw [ofNat_add, BitVec.add_assoc, BitVec.add_comm 256]
        rfl
      have left : width - hweMemDataMax - hweMemDataMax * index =
          width - (hweMemDataMax * index + hweMemDataMax) := by omega
      rw [← place, ← left]
      exact ih behind index (by omega)

theorem Tiled.empty_behind (tiled : Tiled body addr width chain)
    (positive : 1 ≤ width) (index : Nat) (cont : Part) (outside : width ≤ hweMemDataMax * index)
    (found : chain[index]? = some cont) : cont.type = hweNull := by
  induction chain generalizing addr width index with
  | nil => exact tiled.elim
  | cons head rest ih =>
    obtain ⟨_, _, behind⟩ := tiled
    cases index with
    | zero => omega
    | succ index =>
      rw [List.getElem?_cons_succ] at found
      rw [Nat.mul_succ] at outside
      split at behind
      · exact behind cont (mem_of_getElem? found)
      · exact ih behind (by omega) index (by omega) found

theorem Tiled.tiles (tiled : Tiled body body.addr width chain) (positive : 1 ≤ width) :
    Tiles chain body width :=
  ⟨tiled.tile, tiled.empty_behind positive⟩

inductive MemCall where
  | setWidth (width : BitVec 32)
  | incWidth (inc : BitVec 32)
  /-- `hwe_extend` for references. -/
  | extend

def MemCall.apply (pool : Pool) (chain : List Part) : MemCall → List Part
  | .setWidth width => hweMem32SetWidth pool chain width.toNat
  | .incWidth inc => (hweMem32IncWidth pool chain inc.toNat).1
  | .extend => hweExtend pool chain

def MemCall.width (width : Nat) : MemCall → Nat
  | .setWidth next => next.toNat
  | .incWidth inc => width + inc.toNat
  | .extend => width

def MemCall.Valid (width : Nat) : MemCall → Prop
  | .setWidth next => 1 ≤ next.toNat
  | .incWidth inc => 1 ≤ inc.toNat ∧ width + inc.toNat < 2 ^ 32
  | .extend => True

/-- A valid call leads from a tiling to a tiling, and an increment returns the
width before it. -/
theorem Tiled.call (tiled : Tiled body addr width chain) (positive : 1 ≤ width)
    (pool : Pool) {call : MemCall} (valid : call.Valid width) :
    Tiled body addr (call.width width) (call.apply pool chain) ∧
      1 ≤ call.width width ∧
      ∀ inc, call = .incWidth inc → (hweMem32IncWidth pool chain inc.toNat).2 = width := by
  cases call with
  | setWidth next => exact ⟨tiled.setWidth pool _, valid, by simp⟩
  | incWidth inc =>
    obtain ⟨widened, returned⟩ := tiled.incWidth positive pool valid.1 valid.2
    refine ⟨widened, Nat.le_add_right_of_le positive, ?_⟩
    rintro _ ⟨⟩
    exact returned
  | extend => exact ⟨tiled.extend rfl, positive, by simp⟩

def memChain (pool : Pool) (nrefs : BitVec 32) (inst : Bool)
    (access : BitVec 4) (addr : Word) (width : BitVec 32) (calls : List MemCall) : List Part :=
  calls.foldl (MemCall.apply pool) (hweMem32Init pool nrefs.toNat inst access addr width.toNat)

def memWidth (width : BitVec 32) (calls : List MemCall) : Nat :=
  calls.foldl MemCall.width width.toNat

section Access

variable (pool : Pool) (nrefs : BitVec 32) (inst : Bool)
  (access : BitVec 4) (addr : Word) {width : BitVec 32}
  {calls : List MemCall}

theorem memChain_tiled (positive : 1 ≤ width.toNat)
    (valid : ∀ n (call : MemCall), calls[n]? = some call →
      call.Valid (memWidth width (calls.take n))) (n : Nat) :
    Tiled (mem32Body inst access addr) addr (memWidth width (calls.take n))
        (memChain pool nrefs inst access addr width (calls.take n)) ∧
      1 ≤ memWidth width (calls.take n) := by
  induction n with
  | zero => exact ⟨mem32Fill_tiled pool _ (by simp), positive⟩
  | succ n ih =>
    rw [take_add_one]
    cases found : calls[n]? with
    | none => simpa using ih
    | some call =>
      obtain ⟨tiled, wide⟩ := ih
      obtain ⟨next, wider, _⟩ := tiled.call wide pool (valid n call found)
      rw [Option.toList_some, memChain, memWidth, foldl_concat, foldl_concat]
      exact ⟨next, wider⟩

end Access

/-- The containers of an access tile its bytes after any valid calls, an
increment returns the width before it, and data is put where the tiling has
it. -/
theorem memory_access_tiled (pool : Pool) (nrefs : BitVec 32) (inst : Bool)
    (access : BitVec 4) (addr : Word) (width : BitVec 32)
    (positive : 1 ≤ width.toNat) (calls : List MemCall)
    (valid : ∀ n (call : MemCall), calls[n]? = some call →
      call.Valid (memWidth width (calls.take n))) :
    Tiles (memChain pool nrefs inst access addr width calls)
        (mem32Body inst access addr) (memWidth width calls) ∧
      (∀ n inc, calls[n]? = some (.incWidth inc) →
        (hweMem32IncWidth pool
            (memChain pool nrefs inst access addr width (calls.take n))
            inc.toNat).2 =
          memWidth width (calls.take n)) ∧
      (∀ data index,
        byteAt (hweMem32SetData (memChain pool nrefs inst access addr width calls) data) index =
          if index < memWidth width calls then some (data index)
          else byteAt (memChain pool nrefs inst access addr width calls) index) ∧
      ∀ index < memWidth width calls, ∀ b other,
        byteAt (hweMem32SetByte (memChain pool nrefs inst access addr width calls) index b) other =
          if other = index then some b
          else byteAt (memChain pool nrefs inst access addr width calls)
            other := by
  obtain ⟨tiled, wide⟩ := memChain_tiled pool nrefs inst access addr positive valid calls.length
  rw [take_length] at tiled wide
  refine ⟨tiled.tiles wide, ?_, ?_, ?_⟩
  · intro n inc found
    obtain ⟨before, positive⟩ := memChain_tiled pool nrefs inst access addr positive valid n
    exact (before.call positive pool (valid n _ found)).2.2 inc rfl
  · intro data index
    rw [tiled.setData_eq]
    exact tiled.byteAt_setDataBehind wide data index
  · intro index inside b other
    exact byteAt_setByte (Nat.lt_of_lt_of_le inside tiled.covers) b other

/-- A container that is only ever filled with zeros. -/
def zeroPart : Part where
  type := 0
  ndates := 0
  nrefs := 0
  expected := 0
  refs := fun _ => 0
  mem32 := ⟨0, 0, 0, 0, 0, 0, 0, 0, 0⟩
  data := fun _ => 0

/-- An access of 300 bytes is cut down to 4 and extended by 298. -/
theorem memory_access_tiled_regrown :
    Tiles
        (memChain (fun _ => zeroPart) 1 false 1 64 300
          [.extend, .setWidth 4, .incWidth 298])
        (mem32Body false 1 64) 302 ∧
      (hweMem32IncWidth (fun _ => zeroPart)
        (memChain (fun _ => zeroPart) 1 false 1 64 300
          [.extend, .setWidth 4]) 298).2 = 4 := by
  obtain ⟨tiles, returned, _⟩ := memory_access_tiled (fun _ => zeroPart) 1
    false 1 64 300 (by decide) [.extend, .setWidth 4, .incWidth 298] (by
      intro n call found
      match n with
      | 0 => cases found; trivial
      | 1 => cases found; exact (by decide : 1 ≤ 4)
      | 2 =>
        cases found
        exact (by decide : 1 ≤ 298 ∧ 4 + 298 < 2 ^ 32)
      | n + 3 => cases found)
  exact ⟨tiles, returned 2 298 rfl⟩

/-- The width zero has no field: the container is initialised as a full one. -/
theorem zero_width_full :
    ∃ cont, memChain (fun _ => zeroPart) 0 false 1 64 0 [] = [cont] ∧
      cont.type = hweMem32 ∧ cont.mem32.width = 255 ∧
      ¬ Tiles (memChain (fun _ => zeroPart) 0 false 1 64 0 [])
        (mem32Body false 1 64) (memWidth 0 []) := by
  obtain ⟨cont, chain, type, width⟩ : ∃ cont,
      memChain (fun _ => zeroPart) 0 false 1 64 0 [] = [cont] ∧
      cont.type = hweMem32 ∧ cont.mem32.width = 255 := by
    rw [memChain, foldl_nil, hweMem32Init, mem32Fill, if_pos (by decide)]
    exact ⟨_, rfl, rfl, rfl⟩
  refine ⟨cont, chain, type, width, fun tiles => ?_⟩
  have empty := tiles.behind 0 cont (by decide) (by rw [chain]; rfl)
  rw [type] at empty
  revert empty
  decide

end Reverse.Decopus
