import Mathlib.Data.List.Chain
import Mathlib.Tactic.Ring

/-!
# Records on a wire

A reader looks at the symbols that have arrived and either asks for more,
gives up, or returns a value with the number of symbols it has used.  A reader
frames a word when that word alone decides its result: it returns after
exactly these symbols whatever follows, and asks for more before.  Framing is
kept by sequencing, so a record made of parts is framed part by part.

The second half lays out packed structures: bit fields from the low bits up,
and words as bytes, the lowest first.
-/

namespace Reverse.Wire

open List hiding count head tail

/-- What a reader makes of the symbols it is given. -/
inductive Outcome (α : Type) where
  | short
  | exit
  | done (value : α) (used : Nat)
  deriving DecidableEq

def Reader (σ α : Type) := List σ → Outcome α

namespace Reader

variable {σ α β : Type}

def pure (value : α) : Reader σ α := fun _ => .done value 0

def exit : Reader σ α := fun _ => .exit

def take (count : Nat) : Reader σ { word : List σ // word.length = count } :=
  fun input =>
    if short : input.length < count then .short
    else
      .done ⟨input.take count, by
        rw [length_take, Nat.min_eq_left (Nat.le_of_not_lt short)]⟩ count

def bind (read : Reader σ α) (next : α → Reader σ β) : Reader σ β :=
  fun input =>
    match read input with
    | .short => .short
    | .exit => .exit
    | .done value used =>
      match next value (input.drop used) with
      | .short => .short
      | .exit => .exit
      | .done result more => .done result (used + more)

instance : Monad (Reader σ) where
  pure := Reader.pure
  bind := Reader.bind

/-- The word decides the result of the reader. -/
structure Frames (read : Reader σ α) (word : List σ) (value : α) : Prop where
  whole : ∀ rest, read (word ++ rest) = .done value word.length
  part : ∀ start, start <+: word → start ≠ word → read start = .short

theorem frames_pure (value : α) : Frames (Pure.pure value : Reader σ α) [] value where
  whole _ := rfl
  part _ isPart short :=
    (short (prefix_nil.mp isPart)).elim

theorem frames_take (length : word.length = count) : Frames (take count) word ⟨word, length⟩ where
  whole rest := by
    subst length
    have enough : ¬ (word ++ rest).length < word.length := by simp
    rw [take, dif_neg enough]
    simp only [take_left]
  part start isPart short := by
    obtain ⟨rest, rfl⟩ := isPart
    have missing : rest ≠ [] := by
      rintro rfl
      exact short (append_nil _).symm
    have positive := length_pos_iff.mpr missing
    rw [length_append] at length
    simp only [take, dif_pos (show start.length < count by omega)]

theorem Frames.bind {read : Reader σ α} (first : Frames read word value)
    (second : Frames (later value) more result) :
    Frames (read >>= later) (word ++ more) result where
  whole rest := by
    change Reader.bind read later _ = _
    simp only [Reader.bind, append_assoc, first.whole, drop_left, second.whole, length_append]
  part start isPart short := by
    change Reader.bind read later start = .short
    by_cases inside : word <+: start
    · obtain ⟨tail, rfl⟩ := inside
      have isTail : tail <+: more := (prefix_append_right_inj word).mp isPart
      have shortTail : tail ≠ more := by
        rintro rfl
        exact short rfl
      simp only [Reader.bind, first.whole, drop_left, second.part tail isTail shortTail]
    · have inFirst : start <+: word :=
        ( prefix_or_prefix_of_prefix isPart (prefix_append word more)).resolve_right inside
      have shortFirst : start ≠ word := by
        rintro rfl
        exact inside (prefix_refl _)
      simp only [Reader.bind, first.part start inFirst shortFirst]

/-- Reading a part of fixed length and building a value from it. -/
theorem frames_build (length : word.length = count)
    {build : { word : List σ // word.length = count } → α} (built : build ⟨word, length⟩ = value) :
    Frames (take count >>= fun part => Pure.pure (build part)) word value := by
  subst built
  have framed : Frames (take count >>= fun part => Pure.pure (build part))
      (word ++ []) (build ⟨word, length⟩) :=
    (frames_take length).bind (frames_pure _)
  rwa [append_nil] at framed

/-- When `front` has been read before, everything read up to a result is what
`write` makes of it. -/
def Echoes (front : List σ) (read : Reader σ α) (write : α → List σ) : Prop :=
  ∀ input value used, read input = .done value used →
    ∃ more rest, write value = front ++ more ∧ input = more ++ rest ∧ used = more.length

theorem echoes_pure (spelled : write value = front) : Echoes front (Pure.pure value) write := by
  intro input result used read
  cases read
  exact ⟨[], input, by rw [spelled, append_nil], rfl, rfl⟩

theorem echoes_take (front : List σ) (count : Nat) :
    Echoes front (take count) fun word => front ++ word.val := by
  intro input word used read
  unfold take at read
  split at read
  · cases read
  · cases read
    exact ⟨input.take count, input.drop count, rfl,
      (take_append_drop _ _).symm,
      by rw [length_take]; omega⟩

theorem echoes_exit (front : List σ) (write : α → List σ) : Echoes front exit write := by
  intro input value used read
  cases read

theorem Echoes.bind {read : Reader σ α} (first : Echoes front read part)
    (second : ∀ value, Echoes (part value) (later value) write) :
    Echoes front (read >>= later) write := by
  intro input result used accepted
  change Reader.bind read later input = _ at accepted
  unfold Reader.bind at accepted
  cases begun : read input with
  | short => simp only [begun, reduceCtorEq] at accepted
  | exit => simp only [begun, reduceCtorEq] at accepted
  | done value count =>
    obtain ⟨some, rest, spelled, rfl, rfl⟩ := first _ _ _ begun
    simp only [begun, drop_left] at accepted
    cases ended : later value rest with
    | short => simp only [ended, reduceCtorEq] at accepted
    | exit => simp only [ended, reduceCtorEq] at accepted
    | done last count =>
      obtain ⟨more, rest, whole, rfl, rfl⟩ := second value _ _ _ ended
      simp only [ended, Outcome.done.injEq] at accepted
      obtain ⟨rfl, rfl⟩ := accepted
      refine ⟨some ++ more, rest, ?_, ?_, ?_⟩
      · rw [whole, spelled, append_assoc]
      · rw [append_assoc]
      · rw [length_append]

theorem echoes_build {build : { word : List σ // word.length = count } → α}
    (spelled : ∀ word, write (build word) = front ++ word.val) :
    Echoes front (take count >>= fun part => Pure.pure (build part)) write :=
  (echoes_take front count).bind fun word => echoes_pure (spelled word)

end Reader

/-- Two groups of bits, the first one in the low bits. -/
def packed {α β : Type} {low high : Nat} (first : α ≃ BitVec low)
    (second : β ≃ BitVec high) : α × β ≃ BitVec (high + low) where
  toFun pair := second pair.2 ++ first pair.1
  invFun bits :=
    (first.symm (bits.setWidth low), second.symm (bits.extractLsb' low high))
  left_inv pair := by
    simp [BitVec.setWidth_append_eq_right, BitVec.extractLsb'_append_eq_left]
  right_inv bits := by
    simp only [Equiv.apply_symm_apply]
    apply BitVec.eq_of_getLsbD_eq
    intro index inside
    rw [BitVec.getLsbD_append]
    split
    · next below => simp [below]
    · next above =>
        have inHigh : index - low < high := by omega
        simp [inHigh, Nat.add_sub_cancel' (Nat.le_of_not_lt above)]

def field (width : Nat) : BitVec width ≃ BitVec width := Equiv.refl _

abbrev Byte := BitVec 8

def leBytes : (count : Nat) → BitVec (8 * count) → List Byte
  | 0, _ => []
  | count + 1, word =>
    word.setWidth 8 :: leBytes count (word.extractLsb' 8 (8 * count))

def leWord : (count : Nat) → List Byte → BitVec (8 * count)
  | 0, _ => 0
  | count + 1, bytes =>
    (leWord count bytes.tail ++ bytes.headD 0 : BitVec (8 * count + 8))

@[simp]
theorem leBytes_length (count : Nat) (word : BitVec (8 * count)) :
    (leBytes count word).length = count := by
  induction count with
  | zero => rfl
  | succ count ih => simp [leBytes, ih]

theorem leWord_append (count : Nat) (word : BitVec (8 * count))
    (rest : List Byte) : leWord count (leBytes count word ++ rest) = word := by
  induction count with
  | zero =>
    have small : word.toNat < 1 := word.isLt
    apply BitVec.eq_of_toNat_eq
    change 0 = word.toNat
    omega
  | succ count ih =>
    simp only [leBytes, leWord, cons_append, tail_cons, headD_cons, ih]
    exact (packed (field 8) (field (8 * count))).right_inv word

@[simp]
theorem leWord_leBytes (count : Nat) (word : BitVec (8 * count)) :
    leWord count (leBytes count word) = word := by
  simpa using leWord_append count word []

theorem leBytes_leWord (count : Nat) (enough : count ≤ bytes.length) :
    leBytes count (leWord count bytes) = bytes.take count := by
  induction count generalizing bytes with
  | zero => rfl
  | succ count ih =>
    cases bytes with
    | nil => cases enough
    | cons byte bytes =>
      have split := (packed (field 8) (field (8 * count))).left_inv (byte, leWord count bytes)
      obtain ⟨low, high⟩ := Prod.ext_iff.mp split
      change BitVec.setWidth 8 (leWord count bytes ++ byte) = byte at low
      change BitVec.extractLsb' 8 (8 * count) (leWord count bytes ++ byte) =
        leWord count bytes at high
      simp only [leBytes, leWord, headD_cons, tail_cons, take_succ_cons]
      rw [low, high, ih (Nat.le_of_succ_le_succ enough)]

/-- The bytes of a structure with a given layout. -/
def bytesOf {α : Type} {count : Nat} (layout : α ≃ BitVec (8 * count)) (value : α) : List Byte :=
  leBytes count (layout value)

/-- The structure that a list of bytes starts with. -/
def structOf {α : Type} {count : Nat} (layout : α ≃ BitVec (8 * count)) (bytes : List Byte) : α :=
  layout.symm (leWord count bytes)

@[simp]
theorem bytesOf_length (layout : α ≃ BitVec (8 * count)) (value : α) :
    (bytesOf layout value).length = count :=
  leBytes_length count _

@[simp]
theorem structOf_bytesOf (layout : α ≃ BitVec (8 * count)) (value : α) :
    structOf layout (bytesOf layout value) = value := by
  simp [structOf, bytesOf]

theorem bytesOf_structOf (layout : α ≃ BitVec (8 * count)) (length : bytes.length = count) :
    bytesOf layout (structOf layout bytes) = bytes := by
  rw [bytesOf, structOf, Equiv.apply_symm_apply,
    leBytes_leWord count (Nat.le_of_eq length.symm),
    take_of_length_le (Nat.le_of_eq length)]

/-- The first `count` pieces of `size` symbols. -/
def pieces {σ : Type} (size : Nat) : Nat → List σ → List (List σ)
  | 0, _ => []
  | count + 1, symbols =>
    symbols.take size :: pieces size count (symbols.drop size)

@[simp]
theorem pieces_length (size count : Nat) (symbols : List σ) :
    (pieces size count symbols).length = count := by
  induction count generalizing symbols with
  | zero => rfl
  | succ count ih => simp [pieces, ih]

theorem flatMap_length {write : α → List σ}
    (fixed : ∀ item, (write item).length = size) (items : List α) :
    (items.flatMap write).length = size * items.length := by
  induction items with
  | nil => rfl
  | cons item items ih =>
    rw [flatMap_cons, length_append, fixed, ih, length_cons]
    ring

/-- Items written at a fixed size are found again. -/
theorem map_pieces_flatMap {parse : List σ → α} (fixed : ∀ item, (write item).length = size)
    (parsed : ∀ item, parse (write item) = item) (items : List α) (rest : List σ) :
    (pieces size items.length (items.flatMap write ++ rest)).map parse =
      items := by
  induction items with
  | nil => rfl
  | cons item items ih =>
    simp only [length_cons, pieces, flatMap_cons, append_assoc, map_cons]
    rw [← fixed item, take_left, drop_left, fixed item, ih, parsed]

/-- Pieces that parse to items are written again. -/
theorem flatMap_map_pieces {parse : List σ → α}
    (written : ∀ symbols, symbols.length = size → write (parse symbols) = symbols)
    (enough : size * count ≤ symbols.length) :
    ((pieces size count symbols).map parse).flatMap write = symbols.take (size * count) := by
  induction count generalizing symbols with
  | zero => rfl
  | succ count ih =>
    rw [Nat.mul_succ] at enough
    have head : write (parse (symbols.take size)) = symbols.take size :=
      written _ (by rw [length_take]; omega)
    have later : size * count ≤ (symbols.drop size).length := by
      rw [length_drop]
      omega
    rw [pieces, map_cons, flatMap_cons, head, ih later, Nat.mul_succ, Nat.add_comm, take_add]

section Grouping

variable {α β κ : Type} [DecidableEq κ] (key : α → κ)

/-- Neighbours with the key of the first one are put together; `current` is
the group being completed. -/
def group : List α → List α → List (List α)
  | [], [] => []
  | current@(_ :: _), [] => [current]
  | [], item :: items => group [item] items
  | head :: tail, item :: items =>
    if key head = key item then group (head :: tail ++ [item]) items
    else (head :: tail) :: group [item] items
  termination_by _ items => items.length

variable {key}

theorem group_flatten (current items : List α) :
    (group key current items).flatten = current ++ items := by
  fun_induction group key current items with
  | case1 => rfl
  | case2 head tail => simp
  | case3 item items ih => simpa using ih
  | case4 head tail item items same ih => simpa using ih
  | case5 head tail item items differs ih => simpa using ih

theorem group_map {other : β → κ} {change : α → β}
    (kept : ∀ item, other (change item) = key item) (current items : List α) :
    (group key current items).map (List.map change) =
      group other (current.map change) (items.map change) := by
  fun_induction group key current items with
  | case1 => simp [group]
  | case2 head tail => simp [group]
  | case3 item items ih => simpa [group] using ih
  | case4 head tail item items same ih =>
    simpa [group, kept, same] using ih
  | case5 head tail item items differs ih =>
    simpa [group, kept, differs] using ih

theorem group_same (same : ∀ item ∈ block, key item = key head) (items : List α) :
    group key (head :: tail) (block ++ items) = group key (head :: (tail ++ block)) items := by
  induction block generalizing tail with
  | nil => simp
  | cons item block ih =>
    have first : key head = key item := (same item (mem_cons_self ..)).symm
    have rest : group key (head :: (tail ++ [item])) (block ++ items) =
        group key (head :: (tail ++ [item] ++ block)) items :=
      ih fun later member =>
        same later (mem_cons_of_mem _ member)
    rw [cons_append, group, if_pos first]
    simpa using rest

/-- Blocks of one key each are found again if no two neighbours have the same
key. -/
theorem group_blocks {name : γ → κ} (filled : ∀ part, block part ≠ [])
    (named : ∀ part, ∀ item ∈ block part, key item = name part) {parts : List γ}
    (apart : parts.IsChain fun part next => name part ≠ name next) :
    group key [] (parts.flatMap block) = parts.map block := by
  induction parts with
  | nil => simp [group]
  | cons part parts ih =>
    obtain ⟨head, tail, isBlock⟩ := exists_cons_of_ne_nil (filled part)
    have keys := named part
    rw [isBlock] at keys
    have headKey := keys head (mem_cons_self ..)
    have collected : group key [] ((part :: parts).flatMap block) =
        group key (head :: tail) (parts.flatMap block) := by
      rw [flatMap_cons, isBlock, cons_append, group,
        group_same fun item member =>
          (keys item (mem_cons_of_mem _ member)).trans headKey.symm]
      rfl
    rw [collected, map_cons, ← ih apart.tail, isBlock]
    cases parts with
    | nil => simp [group]
    | cons next parts =>
      obtain ⟨nextHead, nextTail, isNext⟩ := exists_cons_of_ne_nil (filled next)
      have nextKey : key nextHead = name next := named next nextHead (by simp [isNext])
      have differs : key head ≠ key nextHead := by
        rw [headKey, nextKey]
        exact apart.rel
      rw [flatMap_cons, isNext, cons_append, group.eq_def key [], group.eq_def key (head :: tail)]
      simp only [if_neg differs]

end Grouping

end Reverse.Wire
