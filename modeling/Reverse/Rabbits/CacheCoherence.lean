import Mathlib.Data.List.Basic
import Reverse.Rabbits.DataCache

/-!
# Coherence of the data cache

Every valid line holds the bytes of the memory behind it, also when it is
dirty: a write always reaches the memory at once.  So a line that is evicted is
copied back over the same bytes, and a read returns the bytes of the memory.
-/

namespace Reverse.Rabbits

open ByteMemory Option

namespace CacheConfig

variable (cfg : CacheConfig)

theorem lineBytes_pos : 0 < cfg.lineBytes := Nat.two_pow_pos _

theorem assoc_pos : 0 < cfg.assoc := Nat.two_pow_pos _

theorem four_dvd_lineBytes : 4 ∣ cfg.lineBytes :=
  Nat.pow_dvd_pow 2 cfg.word

theorem lineStart_add_offset (addr : Nat) : cfg.lineStart addr + cfg.offset addr = addr :=
  Nat.div_add_mod' _ _

theorem offset_lt (addr : Nat) : cfg.offset addr < cfg.lineBytes :=
  Nat.mod_lt _ cfg.lineBytes_pos

theorem offset_mod (divides : nb ∣ cfg.lineBytes) (addr : Nat) :
    cfg.offset addr % nb = addr % nb :=
  Nat.mod_mod_of_dvd addr divides

theorem aligned_inside (divides : nb ∣ cfg.lineBytes)
    (aligned : addr % nb = 0) : cfg.offset addr + nb ≤ cfg.lineBytes := by
  have below := cfg.offset_lt addr
  rw [← cfg.offset_mod divides] at aligned
  obtain ⟨first, isFirst⟩ := Nat.dvd_of_mod_eq_zero aligned
  obtain ⟨last, isLast⟩ := divides
  rw [isFirst, isLast] at below ⊢
  rw [← Nat.mul_succ]
  exact Nat.mul_le_mul_left nb (Nat.lt_of_mul_lt_mul_left below)

theorem tagOf_add (tag : Nat) (inside : ofs < cfg.lineBytes) :
    cfg.tagOf (tag * cfg.lineBytes + ofs) = tag := by
  unfold tagOf
  rw [Nat.mul_comm, Nat.mul_add_div cfg.lineBytes_pos, Nat.div_eq_of_lt inside, Nat.add_zero]

theorem tagOf_lineStart (addr : Nat) : cfg.tagOf (cfg.lineStart addr) = cfg.tagOf addr :=
  cfg.tagOf_add _ cfg.lineBytes_pos

theorem lineStart_addrDbg : cfg.lineStart addrDbg = 0 := by
  have word := Nat.le_of_dvd cfg.lineBytes_pos cfg.four_dvd_lineBytes
  have isZero : cfg.tagOf addrDbg = 0 := Nat.div_eq_of_lt (Nat.lt_of_lt_of_le (by decide) word)
  rw [lineStart, isZero, Nat.zero_mul]

theorem tagOf_pos (above : floor ≤ addr) (notFirst : cfg.lineBytes ≤ floor) : cfg.tagOf addr ≠ 0 :=
  (Nat.div_pos (Nat.le_trans notFirst above) cfg.lineBytes_pos).ne'

end CacheConfig

/-- Where the valid lines are. -/
structure Placed (cfg : CacheConfig) (cache : DataCache) : Prop where
  inSet : ∀ idx, (cache.line idx).valid = true →
    cfg.startIdx (cache.line idx).tag ≤ idx ∧
      idx < cfg.startIdx (cache.line idx).tag + cfg.assoc
  unique : ∀ idx other, (cache.line idx).valid = true →
    (cache.line other).valid = true →
    (cache.line idx).tag = (cache.line other).tag → idx = other

/-- The valid lines hold what the memory holds. -/
structure Coherent (cfg : CacheConfig) (cache : DataCache) : Prop
    extends Placed cfg cache where
  current : ∀ idx, (cache.line idx).valid = true →
    ∀ ofs < cfg.lineBytes, (cache.line idx).data ofs =
      cache.memory ((cache.line idx).tag * cfg.lineBytes + ofs)

/-- No message lacks a trace event in an access from some address on. -/
structure Ready (cfg : CacheConfig) (cache : DataCache) (floor : Nat) :
    Prop extends Coherent cfg cache where
  silent : cache.trId.isSome = true ∨
    cache.excl = false ∧ cfg.lineBytes ≤ floor ∧
      ∀ idx, (cache.line idx).tag ≠ 0

section Lines

variable {cfg : CacheConfig} {cache later : DataCache} {idx tag addr floor : Nat}

theorem dcacheLinePresent_valid (present : dcacheLinePresent cfg cache startIdx tag = some idx) :
    (cache.line idx).valid = true ∧ (cache.line idx).tag = tag := by
  have found := List.find?_some present
  rw [Bool.and_eq_true, beq_iff_eq] at found
  exact ⟨found.2, found.1.symm⟩

theorem Placed.not_present (placed : Placed cfg cache)
    (missing : dcacheLinePresent cfg cache (cfg.startIdx tag) tag =
      none) (valid : (cache.line idx).valid = true) :
    (cache.line idx).tag ≠ tag := by
  rintro rfl
  have inSet := placed.inSet idx valid
  have found := List.find?_eq_none.mp missing idx (List.mem_range'_1.mpr inSet)
  rw [valid] at found
  simp at found

theorem Placed.present (placed : Placed cfg cache) (valid : (cache.line idx).valid = true)
    (isTag : (cache.line idx).tag = tag) :
    dcacheLinePresent cfg cache (cfg.startIdx tag) tag = some idx := by
  cases found : dcacheLinePresent cfg cache (cfg.startIdx tag) tag with
  | none => exact absurd isTag (placed.not_present found valid)
  | some other =>
    obtain ⟨otherValid, otherTag⟩ := dcacheLinePresent_valid found
    rw [placed.unique other idx otherValid valid (otherTag.trans isTag.symm)]

/-- Only the random numbers and the size of the access differ. -/
structure SameLines (cache later : DataCache) : Prop where
  line : later.line = cache.line
  memory : later.memory = cache.memory
  trId : later.trId = cache.trId
  excl : later.excl = cache.excl

theorem SameLines.present (same : SameLines cache later) (startIdx : Nat) :
    dcacheLinePresent cfg later startIdx tag = dcacheLinePresent cfg cache startIdx tag := by
  unfold dcacheLinePresent
  rw [same.line]

theorem SameLines.ready (same : SameLines cache later)
    (ready : Ready cfg cache floor) : Ready cfg later floor := by
  obtain ⟨⟨⟨inSet, unique⟩, current⟩, silent⟩ := ready
  rw [← same.line] at inSet unique current silent
  rw [← same.memory] at current
  rw [← same.trId, ← same.excl] at silent
  exact ⟨⟨⟨inSet, unique⟩, current⟩, silent⟩

theorem dcacheLineReplace_eq (cfg : CacheConfig) (cache : DataCache) (startIdx : Nat) :
    ∃ idx later, dcacheLineReplace cfg cache startIdx = (idx, later) ∧
      SameLines cache later ∧
      startIdx ≤ idx ∧ idx < startIdx + cfg.assoc := by
  unfold dcacheLineReplace
  cases found : (List.range' startIdx cfg.assoc).find? fun idx =>
      !(cache.line idx).valid with
  | none =>
    have below := Nat.mod_lt (cache.random 0) cfg.assoc_pos
    exact ⟨_, _, rfl, ⟨rfl, rfl, rfl, rfl⟩, by omega, by omega⟩
  | some idx =>
    have inSet := List.mem_range'_1.mp (List.mem_of_find?_eq_some found)
    exact ⟨idx, cache, rfl, ⟨rfl, rfl, rfl, rfl⟩, inSet⟩

theorem takeSize_same (cache : DataCache) : SameLines cache (takeSize cache) := by
  unfold takeSize
  split <;> exact ⟨rfl, rfl, rfl, rfl⟩

theorem DataCache.message_silent (silent : cache.trId.isSome = true ∨ printed = false) :
    cache.message printed = some cache := by
  unfold DataCache.message
  rcases silent with traced | quiet
  · rw [isNone_eq_false_iff.mpr traced, Bool.and_false]
    rfl
  · rw [quiet]
    rfl

/-- A line that is current is copied back over the same bytes. -/
theorem Coherent.writeBack (coherent : Coherent cfg cache) (valid : (cache.line idx).valid = true) :
    writeBack cfg cache idx ((cache.line idx).tag * cfg.lineBytes) =
      cache := by
  have current := coherent.current idx valid
  unfold Rabbits.writeBack DataCache.write
  dsimp only
  rw [copy_same current, store, copy_same]
  intro index below
  obtain rfl := Nat.lt_one_iff.mp below
  rw [byteAt_toNat]
  exact current 0 cfg.lineBytes_pos

theorem Coherent.evict (coherent : Coherent cfg cache) (idx : Nat) :
    evict cfg cache idx = cache := by
  unfold Rabbits.evict
  split
  · rfl
  · split
    · next isDirty =>
        rw [Bool.and_eq_true] at isDirty
        exact coherent.writeBack isDirty.1
    · rfl

theorem DataCache.setLine_self (line : CacheLine) :
    (cache.setLine idx line).line idx = line := if_pos rfl

theorem DataCache.setLine_other (line : CacheLine) (differ : other ≠ idx) :
    (cache.setLine idx line).line other = cache.line other :=
  if_neg differ

/-- A new line for a tag that no valid line has. -/
theorem Coherent.fill (coherent : Coherent cfg cache) (missing : dcacheLinePresent cfg cache
      (cfg.startIdx (cfg.tagOf addr)) (cfg.tagOf addr) = none)
    (inSet : cfg.startIdx (cfg.tagOf addr) ≤ idx ∧
      idx < cfg.startIdx (cfg.tagOf addr) + cfg.assoc) :
    Coherent cfg (fill cfg cache idx addr) := by
  have others : ∀ other, other ≠ idx →
      (Rabbits.fill cfg cache idx addr).line other = cache.line other :=
    fun other differ => DataCache.setLine_other _ differ
  have own : (Rabbits.fill cfg cache idx addr).line idx = _ := DataCache.setLine_self _
  refine ⟨⟨?_, ?_⟩, ?_⟩
  · intro other valid
    by_cases same : other = idx
    · rw [same, own]
      exact inSet
    · rw [others other same] at valid ⊢
      exact coherent.inSet other valid
  · intro first second firstValid secondValid sameTag
    by_cases isFirst : first = idx
    · by_cases isSecond : second = idx
      · rw [isFirst, isSecond]
      · rw [isFirst, own, others second isSecond] at sameTag
        rw [others second isSecond] at secondValid
        exact absurd sameTag.symm (coherent.not_present missing secondValid)
    · by_cases isSecond : second = idx
      · rw [isSecond, own, others first isFirst] at sameTag
        rw [others first isFirst] at firstValid
        exact absurd sameTag (coherent.not_present missing firstValid)
      · rw [others first isFirst] at firstValid sameTag
        rw [others second isSecond] at secondValid sameTag
        exact coherent.unique first second firstValid secondValid sameTag
  · intro other valid ofs inside
    by_cases same : other = idx
    · rw [same, own]
      rfl
    · rw [others other same] at valid ⊢
      exact coherent.current other valid ofs inside

/-- What a read of a line leaves. -/
structure ReadLine (cfg : CacheConfig) (cache : DataCache)
    (floor addr idx : Nat) (later : DataCache) : Prop where
  ready : Ready cfg later floor
  memory : later.memory = cache.memory
  valid : (later.line idx).valid = true
  isTag : (later.line idx).tag = cfg.tagOf addr

section

variable (ready : Ready cfg cache floor)

include ready

theorem Ready.fill (notFirst : cfg.lineBytes ≤ floor → cfg.tagOf addr ≠ 0)
    (missing : dcacheLinePresent cfg cache
      (cfg.startIdx (cfg.tagOf addr)) (cfg.tagOf addr) = none)
    (inSet : cfg.startIdx (cfg.tagOf addr) ≤ idx ∧
      idx < cfg.startIdx (cfg.tagOf addr) + cfg.assoc) :
    ReadLine cfg cache floor addr idx (fill cfg cache idx addr) := by
  have own : (Rabbits.fill cfg cache idx addr).line idx = _ := DataCache.setLine_self _
  refine ⟨⟨ready.toCoherent.fill missing inSet, ?_⟩, rfl, ?_, ?_⟩
  · refine ready.silent.imp_right fun quiet => ⟨quiet.1, quiet.2.1, ?_⟩
    intro other
    by_cases same : other = idx
    · rw [same, own]
      exact notFirst quiet.2.1
    · rw [Rabbits.fill, DataCache.setLine_other _ same]
      exact quiet.2.2 other
  · rw [own]
  · rw [own]

theorem Ready.message_excl : cache.message cache.excl = some cache :=
  DataCache.message_silent (ready.silent.imp_right And.left)

theorem Ready.message_tag (idx : Nat) :
    cache.message ((cache.line idx).tag * cfg.lineBytes ==
      cfg.lineStart addrDbg) = some cache := by
  apply DataCache.message_silent
  refine ready.silent.imp_right fun quiet => ?_
  rw [cfg.lineStart_addrDbg, beq_eq_false_iff_ne]
  exact Nat.mul_ne_zero (quiet.2.2 idx) cfg.lineBytes_pos.ne'

theorem dcacheRead_line (notFirst : cfg.lineBytes ≤ floor → cfg.tagOf addr ≠ 0)
    (size : cache.readSize ≠ 0 ∨ dcacheLinePresent cfg cache
      (cfg.startIdx (cfg.tagOf addr)) (cfg.tagOf addr) = none) :
    ∃ idx later, dcacheRead cfg cache addr = some (idx, later) ∧
      ReadLine cfg cache floor addr idx later := by
  unfold dcacheRead
  dsimp only
  cases present : dcacheLinePresent cfg cache
      (cfg.startIdx (cfg.tagOf addr)) (cfg.tagOf addr) with
  | some idx =>
    have sized : cache.readSize ≠ 0 := size.resolve_right (by rw [present]; exact some_ne_none idx)
    obtain ⟨valid, isTag⟩ := dcacheLinePresent_valid present
    have same : SameLines cache { cache with readSize := 0 } := ⟨rfl, rfl, rfl, rfl⟩
    dsimp only
    rw [ready.message_excl, bind_some, if_neg sized]
    exact ⟨idx, _, rfl, same.ready ready, rfl, valid, isTag⟩
  | none =>
    obtain ⟨idx, replaced, isReplaced, same, inSet⟩ :=
      dcacheLineReplace_eq cfg cache (cfg.startIdx (cfg.tagOf addr))
    have replacedReady := same.ready ready
    have sized := takeSize_same replaced
    dsimp only
    rw [isReplaced]
    dsimp only
    rw [replacedReady.message_tag, bind_some,
      replacedReady.toCoherent.evict, replacedReady.message_excl,
      map_some]
    have filled := (sized.ready replacedReady).fill notFirst
      ((sized.present _).trans ((same.present _).trans present)) inSet
    refine ⟨idx, _, rfl, filled.ready, ?_, filled.valid, filled.isTag⟩
    rw [filled.memory, sized.memory, same.memory]

end

/-- A read returns the bytes of the memory. -/
def Reads (cfg : CacheConfig) (cache : DataCache) (floor addr nb : Nat)
    (result : Option (Nat × DataCache)) : Prop :=
  ∃ later, result = some (load cache.memory addr nb, later) ∧
    Ready cfg later floor ∧ later.memory = cache.memory

theorem readInLine_reads (ready : Ready cfg cache floor) (above : floor ≤ addr) (positive : 0 < nb)
    (inside : cfg.offset addr + nb ≤ cfg.lineBytes) :
    Reads cfg cache floor addr nb (readInLine cfg cache addr nb) := by
  have same : SameLines cache { cache with readSize := nb } := ⟨rfl, rfl, rfl, rfl⟩
  obtain ⟨idx, later, isRead, readLine⟩ :=
    dcacheRead_line (same.ready ready) (cfg.tagOf_pos above) (Or.inl positive.ne')
  unfold readInLine
  rw [isRead]
  refine ⟨later, ?_, readLine.ready, readLine.memory⟩
  have sameBytes : load (later.line idx).data (cfg.offset addr) nb =
      load cache.memory addr nb := by
    apply load_congr
    intro index below
    rw [readLine.ready.current idx readLine.valid _ (by omega),
      readLine.memory, readLine.isTag, ← Nat.add_assoc]
    exact congrArg (fun place => cache.memory (place + index)) (cfg.lineStart_add_offset addr)
  exact congrArg (fun value => some (value, later)) sameBytes

theorem Reads.append {behind : DataCache → Option (Nat × DataCache)}
    (isFirst : Reads cfg cache floor addr first result) (isSecond : ∀ later, Ready cfg later floor →
      Reads cfg later floor (addr + first) second (behind later)) :
    Reads cfg cache floor addr (first + second)
      (result.bind fun (low, later) => (behind later).map
        fun (high, later) => ((high <<< (8 * first)) ||| low, later)) := by
  obtain ⟨middle, rfl, ready, sameMiddle⟩ := isFirst
  obtain ⟨later, isLater, laterReady, sameLater⟩ := isSecond middle ready
  refine ⟨later, ?_, laterReady, sameLater.trans sameMiddle⟩
  rw [bind_some]
  dsimp only
  rw [isLater, sameMiddle, map_some, load_append]

section

variable (ready : Ready cfg cache floor) (above : floor ≤ addr)

include ready above

theorem dcacheReadB_reads : Reads cfg cache floor addr 1 (dcacheReadB cfg cache addr) :=
  readInLine_reads ready above Nat.one_pos (cfg.offset_lt addr)

theorem dcacheReadW_reads : Reads cfg cache floor addr 2 (dcacheReadW cfg cache addr) := by
  have even : 2 ∣ cfg.lineBytes := Nat.dvd_trans (by decide) cfg.four_dvd_lineBytes
  unfold dcacheReadW
  by_cases aligned : addr % 2 = 0
  · rw [if_pos aligned]
    exact readInLine_reads ready above Nat.two_pos (cfg.aligned_inside even aligned)
  · rw [if_neg aligned]
    exact (dcacheReadB_reads ready above).append fun later laterReady =>
      dcacheReadB_reads laterReady (by omega)

theorem dcacheReadL_reads : Reads cfg cache floor addr 4 (dcacheReadL cfg cache addr) := by
  unfold dcacheReadL
  by_cases aligned : addr % 4 = 0
  · rw [if_pos aligned]
    exact readInLine_reads ready above (by decide)
      (cfg.aligned_inside cfg.four_dvd_lineBytes aligned)
  · rw [if_neg aligned]
    by_cases crossing : cfg.offset addr / 4 = (cfg.lineBytes - 1) / 4
    · rw [if_neg (not_not_intro crossing)]
      by_cases odd : addr % 2 = 1
      · rw [if_pos odd]
        obtain ⟨first, isFirst, firstReady, sameFirst⟩ := dcacheReadB_reads ready above
        obtain ⟨second, isSecond, secondReady, sameSecond⟩ :=
          dcacheReadW_reads firstReady (show floor ≤ addr + 1 by omega)
        obtain ⟨third, isThird, thirdReady, sameThird⟩ :=
          dcacheReadB_reads secondReady (show floor ≤ addr + 3 by omega)
        refine ⟨third, ?_, thirdReady, sameThird.trans (sameSecond.trans sameFirst)⟩
        rw [isFirst, bind_some]
        dsimp only
        rw [isSecond, bind_some]
        dsimp only
        rw [isThird, map_some, sameSecond, sameFirst, Nat.or_assoc]
        have low : (load cache.memory (addr + 1) 2 <<< 8) |||
            load cache.memory addr 1 = load cache.memory addr 3 :=
          load_append cache.memory addr 1 2
        have whole : (load cache.memory (addr + 3) 1 <<< 24) |||
            load cache.memory addr 3 = load cache.memory addr 4 :=
          load_append cache.memory addr 3 1
        rw [low, whole]
      · rw [if_neg odd]
        exact (dcacheReadW_reads ready above).append fun later laterReady =>
          dcacheReadW_reads laterReady (by omega)
    · rw [if_pos crossing]
      apply readInLine_reads ready above (by decide)
      have below := cfg.offset_lt addr
      have word := Nat.mod_eq_zero_of_dvd cfg.four_dvd_lineBytes
      omega

end

end Lines

end Reverse.Rabbits
