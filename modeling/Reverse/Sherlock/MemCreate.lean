import Reverse.Library.HexText
import Reverse.Sherlock.Memory

/-!
# Loading the initial memory

`mem_create` reads the file `mem_init`: a number of sections, and for each of
them three fields and then its raw bytes.  Every byte that is not zero becomes
an item of the table, under its address.
-/

namespace Reverse.Sherlock

open HexText Option
open List hiding sections

/-- The loop over the bytes of a section. -/
def loadBytes : HashTable → Word → List Byte → HashTable
  | table, _, [] => table
  | table, ofs, byte :: bytes =>
    let table :=
      if byte = 0 then table
      else
        let (item, table) := table.htGet ofs
        table.put ofs { item with value := byte.setWidth 32 }
    loadBytes table (ofs + 1) bytes

/-- One round of the loop over the sections.  It fails where the tool exits,
and where it would use bytes that `fread` has not read. -/
def loadSection (table : HashTable) (text : List Byte) : Option (HashTable × List Byte) :=
  (scanField (ascii "SECTION=") text).bind fun (_, text) =>
  (scanField (ascii "SIZE=") text).bind fun (size, text) =>
  (scanField (ascii "OFFSET=") text).bind fun (ofs, text) =>
    if text.length < size then none
    else some (loadBytes table (BitVec.ofNat 32 ofs) (text.take size), text.drop size)

def loadSections : Nat → HashTable → List Byte → Option HashTable
  | 0, table, _ => some table
  | sec + 1, table, text =>
    (loadSection table text).bind fun (table, text) =>
      loadSections sec table text

/-- `mem_create` on the content of the file. -/
def memCreate (table : HashTable) (file : List Byte) : Option HashTable :=
  (scanField (ascii "N_SECTIONS=") file).bind fun (sec, text) =>
    loadSections sec table text

structure Section where
  ofs : Word
  bytes : List Byte

def sectionText (number : Nat) (content : Section) : List Byte :=
  field (ascii "SECTION=") number ++
    (field (ascii "SIZE=") content.bytes.length ++
      (field (ascii "OFFSET=") content.ofs.toNat ++ content.bytes))

/-- Sections that are numbered on from `number`. -/
def sectionTexts : Nat → List Section → List Byte
  | _, [] => []
  | number, content :: sections =>
    sectionText (number + 1) content ++ sectionTexts (number + 1) sections

def sectionFile (sections : List Section) : List Byte :=
  field (ascii "N_SECTIONS=") sections.length ++ sectionTexts 0 sections

/-- What `mem_create` can read back: the numbers fit into eight digits and no
content starts with white space. -/
structure Readable (sections : List Section) : Prop where
  count : sections.length < 16 ^ 8
  size : ∀ content ∈ sections, content.bytes.length < 16 ^ 8
  solid : ∀ content ∈ sections, Solid content.bytes

theorem sectionTexts_append (number : Nat) (left right : List Section) :
    sectionTexts number (left ++ right) =
      sectionTexts number left ++ sectionTexts (number + left.length) right := by
  induction left generalizing number with
  | nil => rfl
  | cons content left ih =>
    rw [cons_append, sectionTexts, ih, sectionTexts, length_cons,
      append_assoc, Nat.add_assoc, Nat.add_comm 1]

theorem solid_field (solid : Solid name) (named : name ≠ []) (value : Nat) :
    Solid (field name value ++ rest) := by
  unfold field
  rw [append_assoc, append_assoc]
  exact solid.append named

theorem solid_of_head (solid : text.head?.all fun byte => !isSpace byte) : Solid text := by
  intro byte isHead
  rw [mem_def.mp isHead] at solid
  exact Bool.not_eq_true' _ |>.mp solid

theorem solid_sectionTexts (number : Nat) (sections : List Section) :
    Solid (sectionTexts number sections) := by
  cases sections with
  | nil => nofun
  | cons content sections =>
    rw [sectionTexts, sectionText, append_assoc]
    exact solid_field (solid_of_head (by decide)) (by decide) _

theorem loadSection_text (fits : content.bytes.length < 16 ^ 8)
    (solid : Solid (content.bytes ++ rest)) (number : Nat) (table : HashTable) :
    loadSection table (sectionText number content ++ rest) =
      some (loadBytes table content.ofs content.bytes, rest) := by
  unfold loadSection sectionText
  rw [append_assoc, scanField_field]
  · dsimp only [bind_some]
    rw [append_assoc, scanField_field]
    · dsimp only [bind_some]
      rw [append_assoc, scanField_field _ _ solid]
      dsimp only [bind_some]
      have bounded : content.ofs.toNat < 16 ^ 8 := by
        have := content.ofs.isLt
        omega
      rw [Nat.mod_eq_of_lt fits, Nat.mod_eq_of_lt bounded,
        if_neg (by rw [length_append]; omega), take_left,
        drop_left, BitVec.ofNat_toNat, BitVec.setWidth_eq]
    · rw [append_assoc]
      exact solid_field (solid_of_head (by decide)) (by decide) _
  · rw [append_assoc]
    exact solid_field (solid_of_head (by decide)) (by decide) _

theorem loadSections_texts (size : ∀ content ∈ sections, content.bytes.length < 16 ^ 8)
    (solid : ∀ content ∈ sections, Solid content.bytes) (number : Nat) (table : HashTable) :
    loadSections sections.length table (sectionTexts number sections) =
      some (sections.foldl (fun table content =>
        loadBytes table content.ofs content.bytes) table) := by
  induction sections generalizing number table with
  | nil => rfl
  | cons content sections ih =>
    have solidRest : Solid (content.bytes ++ sectionTexts (number + 1) sections) := by
      by_cases isNil : content.bytes = []
      · rw [isNil]
        exact solid_sectionTexts (number + 1) sections
      · exact (solid content mem_cons_self).append isNil
    rw [length_cons, sectionTexts, loadSections,
      loadSection_text (size content mem_cons_self) solidRest]
    exact ih (fun other member => size other (mem_cons_of_mem _ member))
      (fun other member => solid other (mem_cons_of_mem _ member)) _ _

theorem memCreate_sectionFile (readable : Readable sections) (table : HashTable) :
    memCreate table (sectionFile sections) =
      some (sections.foldl (fun table content =>
        loadBytes table content.ofs content.bytes) table) := by
  unfold memCreate sectionFile
  rw [scanField_field _ _ (solid_sectionTexts 0 sections)]
  dsimp only [bind_some]
  rw [Nat.mod_eq_of_lt readable.count]
  exact loadSections_texts readable.size readable.solid 0 table

/-- A section gives its bytes to its addresses, except zeros. -/
theorem loadBytes_value (fits : start + bytes.length ≤ 2 ^ 32) (table : HashTable) (key : Word) :
    ((loadBytes table (BitVec.ofNat 32 start) bytes).get key).value =
      if start ≤ key.toNat ∧ bytes.getD (key.toNat - start) 0 ≠ 0 then
        (bytes.getD (key.toNat - start) 0).setWidth 32
      else (table.get key).value := by
  induction bytes generalizing start table with
  | nil =>
    rw [if_neg (fun both => both.2 rfl)]
    rfl
  | cons byte bytes ih =>
    rw [length_cons] at fits
    have here : key = BitVec.ofNat 32 start ↔ key.toNat = start := by
      rw [← BitVec.toNat_inj, BitVec.toNat_ofNat, Nat.mod_eq_of_lt (by omega)]
    have next : BitVec.ofNat 32 start + 1 = BitVec.ofNat 32 (start + 1) :=
      (BitVec.ofNat_add ..).symm
    have value : ((if byte = 0 then table
        else (table.htGet (BitVec.ofNat 32 start)).2.put
          (BitVec.ofNat 32 start)
          { (table.htGet (BitVec.ofNat 32 start)).1 with
            value := byte.setWidth 32 }).get key).value =
        if key.toNat = start ∧ byte ≠ 0 then byte.setWidth 32
        else (table.get key).value := by
      by_cases zero : byte = 0
      · rw [if_pos zero, if_neg (fun both => both.2 zero)]
      · rw [if_neg zero, HashTable.get_put]
        by_cases same : key.toNat = start
        · rw [if_pos (here.mpr same), if_pos ⟨same, zero⟩]
        · rw [if_neg (fun isKey => same (here.mp isKey)),
            if_neg (fun both => same both.1), HashTable.get_htGet]
    rw [loadBytes]
    dsimp only
    rw [next, ih (by omega), value]
    rcases Nat.lt_trichotomy key.toNat start with less | same | more
    · rw [if_neg (by omega), if_neg (by omega), if_neg (by omega)]
    · rw [if_neg (by omega), same, Nat.sub_self, getD_cons_zero]
      exact if_congr ⟨fun both => ⟨Nat.le_refl _, both.2⟩, fun both => ⟨rfl, both.2⟩⟩ rfl rfl
    · obtain ⟨gap, isGap⟩ := Nat.exists_eq_add_of_lt more
      rw [if_neg (show ¬(key.toNat = start ∧ byte ≠ 0) by omega),
        show key.toNat - start = gap + 1 by omega, getD_cons_succ,
        show key.toNat - (start + 1) = gap by omega]
      exact if_congr (and_congr_left' ⟨fun _ => by omega, fun _ => by omega⟩) rfl rfl

end Reverse.Sherlock
