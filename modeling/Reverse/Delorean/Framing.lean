import Mathlib
import Reverse.Delorean.Gdbstub

/-!
# Packets on the wire

The frames of `put_packet_binary` and the reader `gdb_read_byte`.  A character
is a byte, taken as a signed number where the source widens it.  Of a packet
that is handled only its text is kept: `gdb_handle_packet` always returns to
`RS_IDLE`.
-/

namespace Reverse.Delorean

open Sherlock Function List

inductive RsState where
  | idle
  | getline
  | chksum1
  | chksum2
  deriving DecidableEq, Repr

/-- What the reader sends, and the packets it hands on. -/
inductive GdbOutput where
  | reply (ch : Byte)
  | packet (line : List Byte)
  deriving DecidableEq, Repr

/-- The fields of `GDBState` that the reader uses. -/
structure GdbLine where
  state : RsState
  lineBuf : Nat → Byte
  lineBufIndex : Nat
  lineCsum : Nat
  log : List GdbOutput

def charByte (ch : Char) : Byte := BitVec.ofNat 8 ch.toNat

def fromhex (v : Int) : Nat :=
  if 48 ≤ v ∧ v ≤ 57 then (v - 48).toNat
  else if 65 ≤ v ∧ v ≤ 70 then (v - 65 + 10).toNat
  else if 97 ≤ v ∧ v ≤ 102 then (v - 97 + 10).toNat
  else 0

/-- The sum of some characters in 32 bits. -/
def csumFrom (csum : BitVec 32) (chars : List Byte) : BitVec 32 :=
  chars.foldl (fun csum ch => csum + ch.signExtend 32) csum

/-- The frame that `put_packet_binary` builds in `last_packet`. -/
def putPacketFrame (buf : List Byte) : List Byte :=
  let csum := csumFrom 0 buf
  charByte '$' :: buf ++
    [charByte '#', charByte (tohex (csum.sshiftRight 4 &&& 0xf#32).toNat),
      charByte (tohex (csum &&& 0xf#32).toNat)]

def bufferText (lineBuf : Nat → Byte) : List Byte :=
  ((List.range gdbMaxPacketLength).map lineBuf).takeWhile (· ≠ 0)

def gdbReadByte (s : GdbLine) (ch : Byte) : GdbLine :=
  match s.state with
  | .idle =>
    if ch = charByte '$' then
      { s with lineBufIndex := 0, state := .getline }
    else s
  | .getline =>
    if ch = charByte '#' then { s with state := .chksum1 }
    else if gdbMaxPacketLength - 1 ≤ s.lineBufIndex then
      { s with state := .idle }
    else
      { s with
        lineBuf := update s.lineBuf s.lineBufIndex ch
        lineBufIndex := s.lineBufIndex + 1 }
  | .chksum1 =>
    { s with
      lineBuf := update s.lineBuf s.lineBufIndex 0
      lineCsum := fromhex ch.toInt <<< 4
      state := .chksum2 }
  | .chksum2 =>
    let s := { s with lineCsum := s.lineCsum ||| fromhex ch.toInt }
    let csum := csumFrom 0 ((List.range s.lineBufIndex).map s.lineBuf)
    if s.lineCsum ≠ (csum &&& 0xff#32).toNat then
      { s with log := s.log ++ [.reply (charByte '-')], state := .idle }
    else
      { s with
        log := s.log ++ [.reply (charByte '+'), .packet (bufferText s.lineBuf)]
        state := .idle }

def gdbReadBytes (s : GdbLine) (bytes : List Byte) : GdbLine :=
  bytes.foldl gdbReadByte s

theorem csumFrom_setWidth (chars : List Byte) (csum : BitVec 32) :
    (csumFrom csum chars).setWidth 8 = csum.setWidth 8 + chars.sum := by
  induction chars generalizing csum with
  | nil => simp [csumFrom]
  | cons ch chars ih =>
    have widened : (ch.signExtend 32).setWidth 8 = ch := by
      ext i inside
      rw [BitVec.getElem_setWidth, BitVec.getLsbD_signExtend]
      simp [inside]
      omega
    change (csumFrom (csum + ch.signExtend 32) chars).setWidth 8 = _
    rw [ih, BitVec.setWidth_add _ _ (by decide), widened, sum_cons, BitVec.add_assoc]

theorem toNat_and_byte (csum : BitVec 32) : (csum &&& 0xff#32).toNat = (csum.setWidth 8).toNat := by
  rw [BitVec.toNat_and, BitVec.toNat_setWidth]
  exact Nat.and_two_pow_sub_one_eq_mod _ 8

theorem toNat_and_low (csum : BitVec 32) :
    (csum &&& 0xf#32).toNat = (csum.setWidth 8).toNat % 16 := by
  rw [BitVec.toNat_and, BitVec.toNat_setWidth]
  refine (Nat.and_two_pow_sub_one_eq_mod _ 4).trans ?_
  omega

theorem toNat_and_high (csum : BitVec 32) :
    (csum.sshiftRight 4 &&& 0xf#32).toNat = (csum.setWidth 8).toNat / 16 := by
  have logical : csum.sshiftRight 4 &&& 0xf#32 = csum >>> 4 &&& 0xf#32 := by
    ext i inside
    rw [BitVec.getElem_and, BitVec.getElem_and, BitVec.getElem_sshiftRight,
      BitVec.getElem_ushiftRight]
    by_cases small : i < 4
    · simp [show 4 + i < 32 by omega]
    · have masked : (0xf#32)[i] = false := by
        have high : 2 ^ 4 ≤ 2 ^ i := Nat.pow_le_pow_right (by decide) (by omega)
        exact Nat.testBit_lt_two_pow (show 0xf < 2 ^ i by omega)
      rw [masked, Bool.and_false, Bool.and_false]
  rw [logical, BitVec.toNat_and, BitVec.toNat_ushiftRight, BitVec.toNat_setWidth]
  refine (Nat.and_two_pow_sub_one_eq_mod _ 4).trans ?_
  rw [Nat.shiftRight_eq_div_pow]
  omega

theorem fromhex_tohex : ∀ digit < 16, fromhex (charByte (tohex digit)).toInt = digit := by
  decide

/-- The reader has taken these characters of a line. -/
structure Typed (s : GdbLine) (line : List Byte) : Prop where
  state : s.state = .getline
  index : s.lineBufIndex = line.length
  text : (List.range line.length).map s.lineBuf = line

theorem map_update_range (buf : Nat → Byte) (ch : Byte) (count : Nat) :
    (List.range count).map (update buf count ch) = (List.range count).map buf := by
  apply map_congr_left
  intro i inside
  exact update_of_ne (Nat.ne_of_lt (mem_range.mp inside)) ..

theorem Typed.next (typed : Typed s line) (notHash : ch ≠ charByte '#')
    (fits : line.length < gdbMaxPacketLength - 1) :
    Typed (gdbReadByte s ch) (line ++ [ch]) ∧ (gdbReadByte s ch).log = s.log := by
  have isNext : gdbReadByte s ch = { s with
      lineBuf := update s.lineBuf s.lineBufIndex ch
      lineBufIndex := s.lineBufIndex + 1 } := by
    unfold gdbReadByte
    rw [typed.state]
    dsimp only
    rw [if_neg notHash, if_neg (typed.index ▸ Nat.not_le_of_lt fits)]
  rw [isNext]
  refine ⟨⟨typed.state, ?_, ?_⟩, rfl⟩
  · rw [length_append, length_singleton]
    exact congrArg (· + 1) typed.index
  · dsimp only
    rw [length_append, length_singleton, range_succ,
      map_append, typed.index, map_update_range, typed.text,
      map_singleton, update_self]

theorem Typed.all (noHash : charByte '#' ∉ payload) :
    ∀ {s : GdbLine} {line : List Byte}, Typed s line →
      line.length + payload.length < gdbMaxPacketLength →
      Typed (gdbReadBytes s payload) (line ++ payload) ∧ (gdbReadBytes s payload).log = s.log := by
  induction payload with
  | nil =>
    intro s line typed _
    rw [append_nil]
    exact ⟨typed, rfl⟩
  | cons ch payload ih =>
    intro s line typed fits
    rw [length_cons] at fits
    rw [mem_cons, not_or] at noHash
    obtain ⟨next, sameLog⟩ := typed.next (Ne.symm noHash.1)
      (show line.length < gdbMaxPacketLength - 1 by omega)
    obtain ⟨last, lastLog⟩ := ih noHash.2 next (by simp; omega)
    rw [append_assoc] at last
    exact ⟨last, lastLog.trans sameLog⟩

theorem bufferText_line (text : (List.range line.length).map buf = line)
    (noNull : 0 ∉ line) (fits : line.length < gdbMaxPacketLength) :
    bufferText (update buf line.length 0) = line := by
  obtain ⟨rest, isRest⟩ := Nat.exists_eq_add_of_lt fits
  have split : List.range gdbMaxPacketLength = List.range line.length ++
      line.length :: (List.range rest).map (line.length + 1 + ·) := by
    rw [isRest, Nat.add_assoc, Nat.add_comm rest 1, ← Nat.add_assoc,
      range_add, range_succ, append_assoc,
      singleton_append]
  unfold bufferText
  rw [split, map_append, map_update_range, text, map_cons, update_self, takeWhile_append_of_pos]
  · rw [takeWhile_cons_of_neg (by simp), append_nil]
  · intro ch member
    simp only [ne_eq, decide_not, Bool.not_eq_eq_eq_not, Bool.not_true, decide_eq_false_iff_not]
    rintro rfl
    exact noNull member

theorem Typed.finish (typed : Typed s line) (noNull : 0 ∉ line)
    (fits : line.length < gdbMaxPacketLength) (first second : Byte) :
    let later := gdbReadBytes s [charByte '#', first, second]
    later.state = .idle ∧ later.log = s.log ++
      if fromhex first.toInt <<< 4 ||| fromhex second.toInt = line.sum.toNat then
        [.reply (charByte '+'), .packet line]
      else [.reply (charByte '-')] := by
  have started : gdbReadByte s (charByte '#') = { s with state := .chksum1 } := by
    unfold gdbReadByte
    rw [typed.state]
    exact if_pos rfl
  have sum : (csumFrom 0 ((List.range s.lineBufIndex).map
      (update s.lineBuf s.lineBufIndex 0)) &&& 0xff#32).toNat =
        line.sum.toNat := by
    rw [map_update_range, typed.index, typed.text, toNat_and_byte, csumFrom_setWidth]
    simp
  have text : bufferText (update s.lineBuf s.lineBufIndex 0) =
      line := by
    rw [typed.index]
    exact bufferText_line typed.text noNull fits
  intro later
  have isLater : later = gdbReadByte (gdbReadByte { s with state := .chksum1 } first) second := by
    rw [← started]
    rfl
  rw [isLater]
  unfold gdbReadByte
  dsimp only
  rw [sum, text]
  by_cases same : fromhex first.toInt <<< 4 ||| fromhex second.toInt = line.sum.toNat
  · rw [if_neg (not_not.mpr same), if_pos same]
    exact ⟨rfl, rfl⟩
  · rw [if_pos same, if_neg same]
    exact ⟨rfl, rfl⟩

/-- A payload between `$`, `#` and two digits. -/
theorem read_frame (isIdle : s.state = .idle) (noHash : charByte '#' ∉ payload)
    (noNull : 0 ∉ payload) (fits : payload.length < gdbMaxPacketLength) (first second : Byte) :
    let later := gdbReadBytes s (charByte '$' :: payload ++ [charByte '#', first, second])
    later.state = .idle ∧ later.log = s.log ++
      if fromhex first.toInt <<< 4 ||| fromhex second.toInt = payload.sum.toNat then
        [.reply (charByte '+'), .packet payload]
      else [.reply (charByte '-')] := by
  have started : gdbReadByte s (charByte '$') =
      { s with lineBufIndex := 0, state := .getline } := by
    unfold gdbReadByte
    rw [isIdle]
    exact if_pos rfl
  have begun : Typed (gdbReadByte s (charByte '$')) [] := by
    rw [started]
    exact ⟨rfl, rfl, rfl⟩
  obtain ⟨typed, sameLog⟩ := begun.all noHash (by simpa using fits)
  rw [nil_append] at typed
  have isLater : gdbReadBytes s
      (charByte '$' :: payload ++ [charByte '#', first, second]) =
        gdbReadBytes (gdbReadBytes (gdbReadByte s (charByte '$')) payload)
          [charByte '#', first, second] := by
    unfold gdbReadBytes
    rw [cons_append, foldl_cons, foldl_append]
  obtain ⟨idle, log⟩ := typed.finish noNull fits first second
  have startLog : (gdbReadByte s (charByte '$')).log = s.log := by
    rw [started]
  rw [sameLog, startLog] at log
  dsimp only
  rw [isLater]
  exact ⟨idle, log⟩

theorem digits_value (value : Nat) (small : value < 256) :
    fromhex (charByte (tohex (value / 16))).toInt <<< 4 |||
      fromhex (charByte (tohex (value % 16))).toInt = value := by
  rw [fromhex_tohex (value / 16) (by omega),
    fromhex_tohex (value % 16) (Nat.mod_lt _ (by decide)),
    Nat.shiftLeft_eq]
  have joined := Nat.two_pow_add_eq_or_of_lt
    (show value % 16 < 2 ^ 4 from Nat.mod_lt _ (by decide)) (value / 16)
  rw [Nat.mul_comm (value / 16) (2 ^ 4), ← joined]
  omega

theorem putPacketFrame_eq (payload : List Byte) :
    putPacketFrame payload = charByte '$' :: payload ++
      [charByte '#', charByte (tohex (payload.sum.toNat / 16)),
        charByte (tohex (payload.sum.toNat % 16))] := by
  unfold putPacketFrame
  dsimp only
  rw [toNat_and_high, toNat_and_low, csumFrom_setWidth]
  simp

theorem gdbReadByte_index (bound : s.lineBufIndex < gdbMaxPacketLength) (ch : Byte) :
    (gdbReadByte s ch).lineBufIndex < gdbMaxPacketLength := by
  unfold gdbReadByte
  cases s.state with
  | idle =>
    dsimp only
    split
    · exact Nat.zero_lt_of_lt bound
    · exact bound
  | getline =>
    dsimp only
    split
    · exact bound
    · split
      · exact bound
      next room =>
        dsimp only
        omega
  | chksum1 => exact bound
  | chksum2 =>
    dsimp only
    split <;> exact bound

theorem gdbReadBytes_index (bytes : List Byte) :
    ∀ {s : GdbLine}, s.lineBufIndex < gdbMaxPacketLength →
      (gdbReadBytes s bytes).lineBufIndex < gdbMaxPacketLength := by
  induction bytes with
  | nil => exact fun bound => bound
  | cons ch bytes ih =>
    intro s bound
    exact ih (gdbReadByte_index bound ch)

/-- A digit as `fromhex` knows it. -/
def IsHexDigit (ch : Byte) : Prop :=
  ch ∈ "0123456789abcdefABCDEF".toList.map charByte

theorem fromhex_or {first second : Byte} (isSecond : IsHexDigit second) :
    fromhex first.toInt <<< 4 ||| fromhex second.toInt =
      fromhex first.toInt * 16 + fromhex second.toInt := by
  have small : ∀ digit ∈ "0123456789abcdefABCDEF".toList.map charByte,
      fromhex digit.toInt < 2 ^ 4 := by
    decide
  have joined := Nat.two_pow_add_eq_or_of_lt (small second isSecond) (fromhex first.toInt)
  rw [Nat.shiftLeft_eq, Nat.mul_comm _ (2 ^ 4), ← joined, Nat.mul_comm]

/-- A frame is read as its payload and acknowledged, the same frame with
another checksum is refused, and no bytes at all lead out of the buffer. -/
theorem packet_framing (s : GdbLine) (payload : List Byte)
    (isIdle : s.state = .idle) (noHash : charByte '#' ∉ payload)
    (noNull : 0 ∉ payload) (fits : payload.length < gdbMaxPacketLength) :
    ((gdbReadBytes s (putPacketFrame payload)).state = .idle ∧
      (gdbReadBytes s (putPacketFrame payload)).log =
        s.log ++ [.reply (charByte '+'), .packet payload]) ∧
    (∀ first second, IsHexDigit first → IsHexDigit second →
      fromhex first.toInt * 16 + fromhex second.toInt ≠ payload.sum.toNat →
      let later := gdbReadBytes s (charByte '$' :: payload ++ [charByte '#', first, second])
      later.state = .idle ∧ later.log = s.log ++ [.reply (charByte '-')]) ∧
    ∀ (start : GdbLine) (bytes : List Byte),
      start.lineBufIndex < gdbMaxPacketLength →
      (gdbReadBytes start bytes).lineBufIndex < gdbMaxPacketLength := by
  refine ⟨?_, ?_, fun start bytes bound => gdbReadBytes_index bytes bound⟩
  · obtain ⟨idle, log⟩ := read_frame isIdle noHash noNull fits
      (charByte (tohex (payload.sum.toNat / 16)))
      (charByte (tohex (payload.sum.toNat % 16)))
    rw [if_pos (digits_value _ payload.sum.isLt)] at log
    rw [putPacketFrame_eq]
    exact ⟨idle, log⟩
  · intro first second _ isSecond differs
    obtain ⟨idle, log⟩ := read_frame isIdle noHash noNull fits first second
    rw [if_neg (fromhex_or isSecond ▸ differs)] at log
    exact ⟨idle, log⟩

/-- The packet `m0,4`, and the same with a wrong checksum. -/
theorem packet_framing_memory :
    let s : GdbLine := ⟨.idle, fun _ => 0, 0, 0, []⟩
    let payload := "m0,4".toList.map charByte
    (gdbReadBytes s (putPacketFrame payload)).log = [.reply (charByte '+'), .packet payload] ∧
      (gdbReadBytes s (charByte '$' :: payload ++
        "#FF".toList.map charByte)).log = [.reply (charByte '-')] := by
  obtain ⟨⟨-, read⟩, refused, -⟩ := packet_framing
    ⟨.idle, fun _ => 0, 0, 0, []⟩ ("m0,4".toList.map charByte) rfl
    (by decide) (by decide) (by decide)
  refine ⟨read, ?_⟩
  exact (refused (charByte 'F') (charByte 'F') (by unfold IsHexDigit; decide)
    (by unfold IsHexDigit; decide) (by decide)).2

end Reverse.Delorean
