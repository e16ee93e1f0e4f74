import Reverse.Rabbits.CacheCoherence

/-!
# The data cache is transparent

Writes of any alignment keep the cache coherent, and so do flushes and
invalidations: a line may be thrown away since the memory has its bytes.  A run
of accesses then returns what it returns on a flat memory, as long as no
message needs a trace event that is not there.
-/

namespace Reverse.Rabbits

open ByteMemory Option

section Lines

variable {cfg : CacheConfig} {cache later : DataCache} {idx tag addr floor : Nat}

theorem store_line (memory : Nat → BitVec 8) (inside : cfg.offset addr + nb ≤ cfg.lineBytes)
    (isOfs : ofs < cfg.lineBytes) (differ : tag ≠ cfg.tagOf addr) :
    store memory addr nb val (tag * cfg.lineBytes + ofs) =
      memory (tag * cfg.lineBytes + ofs) := by
  apply copy_outside
  by_contra reached
  have isAddr := cfg.lineStart_add_offset addr
  have isPlace := cfg.tagOf_add tag isOfs
  have distance : tag * cfg.lineBytes + ofs =
      cfg.tagOf addr * cfg.lineBytes +
        (tag * cfg.lineBytes + ofs - cfg.lineStart addr) := by
    unfold CacheConfig.lineStart at *
    omega
  rw [distance, cfg.tagOf_add _ (by omega)] at isPlace
  exact differ isPlace.symm

/-- Lines and memory after a write inside of a line. -/
theorem Coherent.written (coherent : Coherent cfg cache)
    (inside : cfg.offset addr + nb ≤ cfg.lineBytes)
    (memory : later.memory = store cache.memory addr nb val)
    (tags : ∀ idx, (later.line idx).tag = (cache.line idx).tag)
    (valid : ∀ idx, (later.line idx).valid = true → (cache.line idx).valid = true)
    (own : ∀ idx, (later.line idx).valid = true →
      (cache.line idx).tag = cfg.tagOf addr →
      (later.line idx).data = store (cache.line idx).data (cfg.offset addr) nb val)
    (others : ∀ idx, (cache.line idx).tag ≠ cfg.tagOf addr →
      (later.line idx).data = (cache.line idx).data) :
    Coherent cfg later := by
  refine ⟨⟨fun idx isValid => ?_, ?_⟩, ?_⟩
  · rw [tags]
    exact coherent.inSet idx (valid idx isValid)
  · intro idx other isValid otherValid sameTag
    rw [tags, tags] at sameTag
    exact coherent.unique idx other (valid idx isValid) (valid other otherValid) sameTag
  · intro idx isValid ofs isOfs
    have current := coherent.current idx (valid idx isValid)
    rw [tags, memory]
    by_cases same : (cache.line idx).tag = cfg.tagOf addr
    · have isAddr : cfg.tagOf addr * cfg.lineBytes +
          cfg.offset addr = addr := cfg.lineStart_add_offset addr
      rw [same] at current
      have bytes := copy_part cache.memory
        (cfg.tagOf addr * cfg.lineBytes) (cfg.offset addr) nb
        (byteAt val) ofs
      rw [isAddr] at bytes
      rw [own idx isValid same, same]
      exact (copy_congr (current ofs isOfs)).trans bytes
    · rw [others idx same, store_line _ inside isOfs same]
      exact current ofs isOfs

/-- A write reaches the memory. -/
def Writes (cfg : CacheConfig) (cache : DataCache)
    (floor addr nb val : Nat) (result : Option DataCache) : Prop :=
  ∃ later, result = some later ∧ Ready cfg later floor ∧
    later.memory = store cache.memory addr nb val

theorem Ready.message_addr (ready : Ready cfg cache floor)
    (above : floor ≤ addr) (line : CacheLine) :
    (cache.setLine idx line).message (addr == addrDbg) = some (cache.setLine idx line) := by
  apply DataCache.message_silent
  refine ready.silent.imp_right fun quiet => ?_
  have word := Nat.le_of_dvd cfg.lineBytes_pos cfg.four_dvd_lineBytes
  have large := quiet.2.1
  rw [beq_eq_false_iff_ne]
  unfold addrDbg
  omega

/-- The line of an address and the memory after a write. -/
theorem Ready.written (ready : Ready cfg cache floor) (valid : (cache.line idx).valid = true)
    (isTag : (cache.line idx).tag = cfg.tagOf addr) (inside : cfg.offset addr + nb ≤ cfg.lineBytes)
    (lines : later.line = (cache.setLine idx line).line)
    (sameTag : line.tag = (cache.line idx).tag) (data : line.data =
      store (cache.line idx).data (cfg.offset addr) nb val)
    (memory : later.memory = store cache.memory addr nb val)
    (trId : later.trId = cache.trId) (excl : later.excl = cache.excl) :
    Ready cfg later floor := by
  have own : later.line idx = line := by
    rw [lines]
    exact DataCache.setLine_self line
  have others : ∀ other, other ≠ idx → later.line other = cache.line other := by
    intro other differ
    rw [lines]
    exact DataCache.setLine_other line differ
  have tags : ∀ other, (later.line other).tag = (cache.line other).tag := by
    intro other
    by_cases same : other = idx
    · rw [same, own, sameTag]
    · rw [others other same]
  refine ⟨ready.toCoherent.written inside memory tags ?_ ?_ ?_, ?_⟩
  · intro other isValid
    by_cases same : other = idx
    · rw [same, valid]
    · rw [others other same] at isValid
      exact isValid
  · intro other isValid hasTag
    by_cases same : other = idx
    · rw [same, own, data]
    · rw [others other same] at isValid
      exact absurd (ready.unique other idx isValid valid (hasTag.trans isTag.symm)) same
  · intro other notTag
    rw [others other fun same => notTag (same ▸ isTag)]
  · rw [trId, excl]
    refine ready.silent.imp_right fun quiet => ⟨quiet.1, quiet.2.1, ?_⟩
    intro other
    rw [tags]
    exact quiet.2.2 other

theorem DataCache.setLine_excl (line : CacheLine) :
    (cache.setLine idx line).excl = cache.excl := rfl

theorem DataCache.setLine_twice (first second : CacheLine) :
    (cache.setLine idx first).setLine idx second = cache.setLine idx second := by
  unfold DataCache.setLine
  congr 1
  funext other
  by_cases same : other = idx
  · rw [if_pos same, if_pos same]
  · rw [if_neg same, if_neg same]
    exact if_neg same

theorem dcacheInvalidate_setData (ready : Ready cfg cache floor)
    (valid : (cache.line idx).valid = true) (isTag : (cache.line idx).tag = cfg.tagOf addr)
    (data : Nat → BitVec 8) :
    dcacheInvalidate cfg (cache.setLine idx { cache.line idx with data := data }) addr =
      cache.setLine idx { cache.line idx with valid := false, data := data } := by
  have present : dcacheLinePresent cfg
      (cache.setLine idx { cache.line idx with data := data })
      (cfg.startIdx (cfg.tagOf addr)) (cfg.tagOf addr) = some idx := by
    rw [← ready.present valid isTag]
    unfold dcacheLinePresent
    congr 1
    funext other
    by_cases same : other = idx
    · rw [same, DataCache.setLine_self]
    · rw [DataCache.setLine_other _ same]
  unfold dcacheInvalidate
  dsimp only
  rw [present]
  dsimp only
  rw [DataCache.setLine_twice, DataCache.setLine_self]

theorem writeHit_writes (val : Nat) (ready : Ready cfg cache floor)
    (above : floor ≤ addr) (valid : (cache.line idx).valid = true)
    (isTag : (cache.line idx).tag = cfg.tagOf addr)
    (inside : cfg.offset addr + nb ≤ cfg.lineBytes) :
    Writes cfg cache floor addr nb val (writeHit cfg cache idx addr nb val) := by
  unfold writeHit
  dsimp only
  cases cfg.policy with
  | through =>
    exact ⟨_, rfl, ready.written valid isTag inside rfl rfl rfl rfl rfl rfl, rfl⟩
  | back =>
    dsimp only
    rw [DataCache.setLine_excl]
    by_cases exclusive : cache.excl = true
    · rw [if_pos exclusive, dcacheInvalidate_setData ready valid isTag, ready.message_addr above]
      refine ⟨_, rfl, ?_, ?_⟩
      · exact ready.written valid isTag inside rfl rfl rfl (store_twice val) rfl rfl
      · exact store_twice val
    · rw [if_neg exclusive, DataCache.setLine_twice,
        DataCache.setLine_self, ready.message_addr above]
      exact ⟨_, rfl, ready.written valid isTag inside rfl rfl rfl rfl rfl rfl, rfl⟩

theorem Writes.append (isFirst : Writes cfg cache floor addr first low result)
    (isSecond : ∀ later, Ready cfg later floor →
      Writes cfg later floor (addr + first) second high (behind later))
    (isLow : low = val &&& (2 ^ (8 * first) - 1))
    (isHigh : high = (val >>> (8 * first)) &&& (2 ^ (8 * second) - 1)) :
    Writes cfg cache floor addr (first + second) val (result.bind behind) := by
  obtain ⟨middle, rfl, ready, isMiddle⟩ := isFirst
  obtain ⟨later, isLater, laterReady, written⟩ := isSecond middle ready
  refine ⟨later, isLater, laterReady, ?_⟩
  rw [written, isMiddle, isLow, isHigh, store_mask, store_mask, store_append]

theorem Ready.write_missing (val : Nat) (ready : Ready cfg cache floor)
    (missing : dcacheLinePresent cfg cache
      (cfg.startIdx (cfg.tagOf addr)) (cfg.tagOf addr) = none)
    (inside : cfg.offset addr + nb ≤ cfg.lineBytes) :
    Ready cfg (cache.write addr nb val) floor := by
  refine ⟨ready.toCoherent.written inside rfl (fun _ => rfl)
    (fun _ valid => valid) ?_ (fun _ _ => rfl), ready.silent⟩
  intro idx valid isTag
  exact absurd isTag (ready.not_present missing valid)

theorem markStore_ready (ready : Ready cfg cache floor) :
    Ready cfg (markStore cache) floor := by
  unfold markStore
  split
  · exact ⟨⟨⟨ready.inSet, ready.unique⟩, ready.current⟩, Or.inl rfl⟩
  · exact ready

theorem markStore_present (startIdx : Nat) :
    dcacheLinePresent cfg (markStore cache) startIdx tag =
      dcacheLinePresent cfg cache startIdx tag := by
  unfold markStore
  split <;> rfl

theorem markStore_memory : (markStore cache).memory = cache.memory := by
  unfold markStore
  split <;> rfl

/-- With write-back, a write that misses is one that hits. -/
theorem dcacheWrite_fetch (depth nb val : Nat)
    (ready : Ready cfg cache floor) (above : floor ≤ addr)
    (inRam : addr < cfg.ramSize) (isBack : cfg.policy = .back)
    (missing : dcacheLinePresent cfg cache
      (cfg.startIdx (cfg.tagOf addr)) (cfg.tagOf addr) = none) :
    ∃ idx later, dcacheWrite cfg (depth + 1) cache addr nb val =
        dcacheWrite cfg depth later addr nb val ∧
      ReadLine cfg cache floor addr idx later := by
  have sameTag := cfg.tagOf_lineStart addr
  have notFirst : cfg.lineBytes ≤ floor → cfg.tagOf (cfg.lineStart addr) ≠ 0 := by
    rw [sameTag]
    exact cfg.tagOf_pos above
  obtain ⟨idx, later, isRead, readLine⟩ := dcacheRead_line
    (markStore_ready ready) notFirst
    (Or.inr (by rw [sameTag, markStore_present, missing]))
  refine ⟨idx, later, ?_, readLine.ready, ?_, readLine.valid, ?_⟩
  · rw [dcacheWrite, if_neg (Nat.not_le_of_lt inRam)]
    dsimp only
    rw [missing, isBack]
    dsimp only
    rw [isRead, bind_some]
  · rw [readLine.memory, markStore_memory]
  · rw [readLine.isTag, sameTag]

/-- Widths of accesses. -/
def IsWidth (nb : Nat) : Prop := nb = 1 ∨ nb = 2 ∨ nb = 4

theorem IsWidth.divides (isWidth : IsWidth nb) (cfg : CacheConfig) : nb ∣ cfg.lineBytes := by
  apply Nat.dvd_trans _ cfg.four_dvd_lineBytes
  rcases isWidth with rfl | rfl | rfl <;> decide

theorem IsWidth.pos (isWidth : IsWidth nb) : 0 < nb := by
  rcases isWidth with rfl | rfl | rfl <;> decide

theorem dcacheWrite_aligned (depth : Nat) (val : Nat) (isWidth : IsWidth nb)
    (ready : Ready cfg cache floor) (above : floor ≤ addr)
    (inRam : addr < cfg.ramSize) (aligned : addr % nb = 0) :
    Writes cfg cache floor addr nb val (dcacheWrite cfg (depth + 2) cache addr nb val) := by
  have inside := cfg.aligned_inside (isWidth.divides cfg) aligned
  have ofsAligned : cfg.offset addr % nb = 0 := by
    rw [cfg.offset_mod (isWidth.divides cfg), aligned]
  have hits : ∀ (depth idx : Nat) (cache : DataCache),
      Ready cfg cache floor → (cache.line idx).valid = true →
      (cache.line idx).tag = cfg.tagOf addr →
      Writes cfg cache floor addr nb val (dcacheWrite cfg (depth + 1) cache addr nb val) := by
    intro depth idx cache ready valid isTag
    have written := writeHit_writes val ready above valid isTag inside
    rw [dcacheWrite, if_neg (Nat.not_le_of_lt inRam)]
    dsimp only
    rw [ready.present valid isTag]
    dsimp only
    rcases isWidth with rfl | rfl | rfl
    · exact written
    · rw [if_neg (by decide), if_pos rfl, if_pos ofsAligned]
      exact written
    · rw [if_neg (by decide), if_neg (by decide), if_pos rfl, if_pos ofsAligned]
      exact written
  cases present : dcacheLinePresent cfg cache
      (cfg.startIdx (cfg.tagOf addr)) (cfg.tagOf addr) with
  | some idx =>
    obtain ⟨valid, isTag⟩ := dcacheLinePresent_valid present
    exact hits _ idx cache ready valid isTag
  | none =>
    cases isPolicy : cfg.policy with
    | through =>
      have written := ready.write_missing val present inside
      rw [dcacheWrite, if_neg (Nat.not_le_of_lt inRam)]
      dsimp only
      rw [present, isPolicy]
      dsimp only
      rcases isWidth with rfl | rfl | rfl
      · exact ⟨_, rfl, written, rfl⟩
      · rw [if_neg (by decide), if_pos rfl, if_pos ofsAligned]
        exact ⟨_, rfl, written, rfl⟩
      · rw [if_neg (by decide), if_neg (by decide), if_pos rfl, if_pos ofsAligned]
        exact ⟨_, rfl, written, rfl⟩
    | back =>
      obtain ⟨idx, later, isLater, readLine⟩ := dcacheWrite_fetch
        (depth + 1) nb val ready above inRam isPolicy present
      rw [isLater]
      obtain ⟨last, isLast, lastReady, written⟩ := hits depth idx later
        readLine.ready readLine.valid readLine.isTag
      rw [readLine.memory] at written
      exact ⟨last, isLast, lastReady, written⟩

theorem Writes.half_odd (first : Writes cfg cache floor addr 1 (val &&& 0xff) result)
    (above : floor ≤ addr) (inRam : addr + 2 ≤ cfg.ramSize) :
    Writes cfg cache floor addr 2 val
      (result.bind fun cache => dcacheWrite cfg (depth + 2) cache
        (addr + 1) 1 ((val >>> 8) &&& 0xff)) := by
  have rest : ∀ later, Ready cfg later floor →
      Writes cfg later floor (addr + 1) 1 ((val >>> 8) &&& 0xff)
        (dcacheWrite cfg (depth + 2) later (addr + 1) 1
          ((val >>> 8) &&& 0xff)) := fun later ready =>
    dcacheWrite_aligned depth _ (Or.inl rfl) ready (by omega) (by omega) (Nat.mod_one _)
  exact first.append rest rfl rfl

theorem Writes.word_odd (first : Writes cfg cache floor addr 1 (val &&& 0xff) result)
    (above : floor ≤ addr) (inRam : addr + 4 ≤ cfg.ramSize) (odd : addr % 2 = 1) :
    Writes cfg cache floor addr 4 val
      (result.bind fun cache => (dcacheWrite cfg (depth + 2) cache
        (addr + 1) 2 ((val >>> 8) &&& 0xffff)).bind fun cache =>
          dcacheWrite cfg (depth + 2) cache (addr + 3) 1 ((val >>> 24) &&& 0xff)) := by
  have rest : ∀ later, Ready cfg later floor →
      Writes cfg later floor (addr + 1) 3
        ((val >>> 8) &&& (2 ^ (8 * 3) - 1))
        ((dcacheWrite cfg (depth + 2) later (addr + 1) 2
          ((val >>> 8) &&& 0xffff)).bind fun cache =>
            dcacheWrite cfg (depth + 2) cache (addr + 3) 1 ((val >>> 24) &&& 0xff)) := by
    intro later ready
    have half := dcacheWrite_aligned depth
      ((val >>> 8) &&& 0xffff) (Or.inr (Or.inl rfl)) ready
      (show floor ≤ addr + 1 by omega) (by omega) (by omega)
    have whole : Writes cfg later floor (addr + 1) 3 (val >>> 8) _ :=
      half.append (fun later ready => dcacheWrite_aligned depth
        ((val >>> 24) &&& 0xff) (Or.inl rfl) ready
        (show floor ≤ addr + 3 by omega) (by omega) (Nat.mod_one _)) rfl ?_
    · obtain ⟨last, isLast, lastReady, written⟩ := whole
      exact ⟨last, isLast, lastReady, written.trans (store_mask _).symm⟩
    · rw [Nat.shiftRight_add val 8 16]
      rfl
  exact first.append rest rfl rfl

theorem Writes.word_even (first : Writes cfg cache floor addr 2 (val &&& 0xffff) result)
    (above : floor ≤ addr) (inRam : addr + 4 ≤ cfg.ramSize) (even : addr % 2 = 0) :
    Writes cfg cache floor addr 4 val
      (result.bind fun cache => dcacheWrite cfg (depth + 2) cache
        (addr + 2) 2 ((val >>> 16) &&& 0xffff)) := by
  have rest : ∀ later, Ready cfg later floor →
      Writes cfg later floor (addr + 2) 2 ((val >>> 16) &&& 0xffff)
        (dcacheWrite cfg (depth + 2) later (addr + 2) 2
          ((val >>> 16) &&& 0xffff)) := fun later ready =>
    dcacheWrite_aligned depth _ (Or.inr (Or.inl rfl)) ready (by omega) (by omega) (by omega)
  exact first.append rest rfl rfl

theorem CacheConfig.offset_half (cfg : CacheConfig) (addr : Nat) :
    cfg.offset addr % 2 = addr % 2 :=
  cfg.offset_mod (Nat.dvd_trans (by decide) cfg.four_dvd_lineBytes) addr

section

variable (depth : Nat) (val : Nat) (isWidth : IsWidth nb)
  (ready : Ready cfg cache floor) (above : floor ≤ addr)
  (inRam : addr + nb ≤ cfg.ramSize)

include depth val isWidth ready above inRam

/-- A write that is not aligned, and whose line is there, is split. -/
theorem dcacheWrite_split_hit (unaligned : addr % nb ≠ 0) (valid : (cache.line idx).valid = true)
    (isTag : (cache.line idx).tag = cfg.tagOf addr) :
    Writes cfg cache floor addr nb val (dcacheWrite cfg (depth + 3) cache addr nb val) := by
  have isOfs := cfg.offset_mod cfg.four_dvd_lineBytes addr
  have isHalf := cfg.offset_half addr
  rcases isWidth with rfl | rfl | rfl
  · exact absurd (Nat.mod_one addr) unaligned
  · have first := dcacheWrite_aligned depth (val &&& 0xff) (Or.inl rfl) ready
      above (by omega) (Nat.mod_one addr)
    rw [dcacheWrite, if_neg (by omega)]
    dsimp only
    rw [ready.present valid isTag]
    dsimp only
    rw [if_neg (by decide), if_pos rfl, if_neg (by omega)]
    exact first.half_odd above inRam
  · rw [dcacheWrite, if_neg (by omega)]
    dsimp only
    rw [ready.present valid isTag]
    dsimp only
    rw [if_neg (by decide), if_neg (by decide), if_pos rfl, if_neg (by omega)]
    by_cases odd : addr % 2 = 1
    · have first := dcacheWrite_aligned depth (val &&& 0xff) (Or.inl rfl)
        ready above (by omega) (Nat.mod_one addr)
      rw [if_pos (isHalf.trans odd)]
      exact first.word_odd above inRam odd
    · have first := dcacheWrite_aligned depth (val &&& 0xffff)
        (Or.inr (Or.inl rfl)) ready above (by omega)
        (show addr % 2 = 0 by omega)
      rw [if_neg (by omega)]
      exact first.word_even above inRam (by omega)

/-- The same with write-through when no line has it: the first part goes to
the memory. -/
theorem dcacheWrite_split_through (unaligned : addr % nb ≠ 0) (isThrough : cfg.policy = .through)
    (missing : dcacheLinePresent cfg cache
      (cfg.startIdx (cfg.tagOf addr)) (cfg.tagOf addr) = none) :
    Writes cfg cache floor addr nb val (dcacheWrite cfg (depth + 3) cache addr nb val) := by
  have isOfs := cfg.offset_mod cfg.four_dvd_lineBytes addr
  have isHalf := cfg.offset_half addr
  have byte : Writes cfg cache floor addr 1 (val &&& 0xff)
      (some (cache.write addr 1 (val &&& 0xff))) :=
    ⟨_, rfl, ready.write_missing _ missing (cfg.offset_lt addr), rfl⟩
  have positive := isWidth.pos
  rw [dcacheWrite, if_neg (by omega)]
  dsimp only
  rw [missing, isThrough]
  dsimp only
  rcases isWidth with rfl | rfl | rfl
  · exact absurd (Nat.mod_one addr) unaligned
  · rw [if_neg (by decide), if_pos rfl, if_neg (by omega)]
    exact byte.half_odd above inRam
  · rw [if_neg (by decide), if_neg (by decide), if_pos rfl, if_neg (by omega)]
    by_cases odd : addr % 2 = 1
    · rw [if_pos (isHalf.trans odd)]
      exact byte.word_odd above inRam odd
    · have even : addr % 2 = 0 := by omega
      have inside : cfg.offset addr + 2 ≤ cfg.lineBytes :=
        cfg.aligned_inside (IsWidth.divides (Or.inr (Or.inl rfl)) cfg) even
      have half : Writes cfg cache floor addr 2 (val &&& 0xffff)
          (some (cache.write addr 2 (val &&& 0xffff))) :=
        ⟨_, rfl, ready.write_missing _ missing inside, rfl⟩
      rw [if_neg (by omega)]
      exact half.word_even above inRam even

theorem dcacheWrite_writes :
    Writes cfg cache floor addr nb val (dcacheWrite cfg (depth + 4) cache addr nb val) := by
  have positive := isWidth.pos
  have here : addr < cfg.ramSize := by omega
  by_cases aligned : addr % nb = 0
  · exact dcacheWrite_aligned (depth + 2) val isWidth ready above here aligned
  · cases present : dcacheLinePresent cfg cache
        (cfg.startIdx (cfg.tagOf addr)) (cfg.tagOf addr) with
    | some idx =>
      obtain ⟨valid, isTag⟩ := dcacheLinePresent_valid present
      exact dcacheWrite_split_hit (depth + 1) val isWidth ready above inRam aligned valid isTag
    | none =>
      cases isPolicy : cfg.policy with
      | through =>
        exact dcacheWrite_split_through (depth + 1) val isWidth ready
          above inRam aligned isPolicy present
      | back =>
        obtain ⟨idx, later, isLater, readLine⟩ := dcacheWrite_fetch
          (depth + 3) nb val ready above here isPolicy present
        obtain ⟨last, isLast, lastReady, written⟩ :=
          dcacheWrite_split_hit depth val isWidth readLine.ready above
            inRam aligned readLine.valid readLine.isTag
        rw [readLine.memory] at written
        rw [isLater]
        exact ⟨last, isLast, lastReady, written⟩

end

/-- The cache in an access of a CPU in another state. -/
abbrev DataCache.withCpu (trId : Option Bool) (excl : Bool) (cache : DataCache) : DataCache :=
  { cache with trId := trId, excl := excl }

/-- With write-through, a write does not look at the state of the CPU. -/
theorem dcacheWrite_through (isThrough : cfg.policy = .through) (trId : Option Bool) (excl : Bool)
    (depth : Nat) (cache : DataCache) (addr nb val : Nat) :
    dcacheWrite cfg depth (cache.withCpu trId excl) addr nb val =
      (dcacheWrite cfg depth cache addr nb val).map (·.withCpu trId excl) := by
  induction depth generalizing cache addr nb val with
  | zero => rfl
  | succ depth ih =>
    have present (startIdx tag : Nat) :
        dcacheLinePresent cfg (cache.withCpu trId excl) startIdx tag =
          dcacheLinePresent cfg cache startIdx tag := rfl
    have write (cache : DataCache) (addr nb val : Nat) :
        (cache.withCpu trId excl).write addr nb val =
          (cache.write addr nb val).withCpu trId excl := rfl
    have hit (idx : Nat) : writeHit cfg (cache.withCpu trId excl) idx addr nb val =
        (writeHit cfg cache idx addr nb val).map (·.withCpu trId excl) := by
      simp only [writeHit, isThrough]
      rfl
    simp only [dcacheWrite, present, hit, write, isThrough, ih, bind_map,
      Function.comp_def, apply_ite (Option.map _), map_none]
    cases dcacheLinePresent cfg cache (cfg.startIdx (cfg.tagOf addr)) (cfg.tagOf addr) <;>
      simp only [apply_ite (Option.map _), map_some, map_none, Option.map_bind, Function.comp_def]

section

variable (coherent : Coherent cfg cache)

include coherent

/-- Lines may be thrown away, and their dirty flags do not matter. -/
theorem Coherent.fewer (memory : later.memory = cache.memory)
    (kept : ∀ idx, (later.line idx).valid = true →
      (cache.line idx).valid = true ∧
        (later.line idx).tag = (cache.line idx).tag ∧
        (later.line idx).data = (cache.line idx).data) :
    Coherent cfg later := by
  refine ⟨⟨fun idx valid => ?_, fun idx other valid otherValid same => ?_⟩,
    fun idx valid ofs inside => ?_⟩
  · obtain ⟨wasValid, sameTag, -⟩ := kept idx valid
    rw [sameTag]
    exact coherent.inSet idx wasValid
  · obtain ⟨wasValid, sameTag, -⟩ := kept idx valid
    obtain ⟨otherWasValid, otherSameTag, -⟩ := kept other otherValid
    rw [sameTag, otherSameTag] at same
    exact coherent.unique idx other wasValid otherWasValid same
  · obtain ⟨wasValid, sameTag, sameData⟩ := kept idx valid
    rw [sameTag, sameData, memory]
    exact coherent.current idx wasValid ofs inside

theorem Coherent.setFlags (idx : Nat) (valid dirty : Bool)
    (fewer : valid = true → (cache.line idx).valid = true) :
    Coherent cfg (cache.setLine idx { cache.line idx with valid := valid, dirty := dirty }) := by
  refine coherent.fewer rfl fun other isValid => ?_
  by_cases same : other = idx
  · rw [same, DataCache.setLine_self] at isValid ⊢
    exact ⟨fewer isValid, rfl, rfl⟩
  · rw [DataCache.setLine_other _ same] at isValid ⊢
    exact ⟨isValid, rfl, rfl⟩

theorem Coherent.invalidate (addr : Nat) :
    Coherent cfg (dcacheInvalidate cfg cache addr) ∧
      (dcacheInvalidate cfg cache addr).memory = cache.memory := by
  unfold dcacheInvalidate
  dsimp only
  split
  · exact ⟨coherent.setFlags _ false _ nofun, rfl⟩
  · exact ⟨coherent, rfl⟩

theorem Coherent.invalidateAll : Coherent cfg (dcacheInvalidateAll cfg cache) := by
  refine coherent.fewer rfl fun idx valid => ?_
  unfold dcacheInvalidateAll at valid ⊢
  dsimp only at valid ⊢
  by_cases inside : idx < cfg.lines
  · rw [if_pos inside] at valid
    cases valid
  · rw [if_neg inside] at valid ⊢
    exact ⟨valid, rfl, rfl⟩

theorem Coherent.flushLine (idx : Nat) :
    Coherent cfg (flushLine cfg cache idx) ∧
      (flushLine cfg cache idx).memory = cache.memory := by
  unfold Rabbits.flushLine
  split
  · next isDirty =>
      rw [Bool.and_eq_true] at isDirty
      have cleaned := coherent.setFlags idx (cache.line idx).valid false id
      have own : (cache.setLine idx
          { cache.line idx with dirty := false }).line idx =
            { cache.line idx with dirty := false } :=
        DataCache.setLine_self _
      have valid : ((cache.setLine idx
          { cache.line idx with dirty := false }).line idx).valid = true := by
        rw [own]
        exact isDirty.1
      have written := cleaned.writeBack valid
      rw [own] at written
      rw [written]
      exact ⟨cleaned, rfl⟩
  · exact ⟨coherent, rfl⟩

theorem Coherent.flushAll :
    Coherent cfg (dcacheFlushAll cfg cache) ∧
      (dcacheFlushAll cfg cache).memory = cache.memory := by
  unfold dcacheFlushAll
  split
  · exact ⟨coherent, rfl⟩
  · induction List.range cfg.lines generalizing cache with
    | nil => exact ⟨coherent, rfl⟩
    | cons idx rest ih =>
      obtain ⟨isCoherent, sameMemory⟩ := coherent.flushLine idx
      obtain ⟨lastCoherent, lastMemory⟩ := ih isCoherent
      exact ⟨lastCoherent, lastMemory.trans sameMemory⟩

end

theorem Ready.flush (ready : Ready cfg cache floor) (addr : Nat) :
    ∃ later, dcacheFlush cfg cache addr = some later ∧
      Coherent cfg later ∧ later.memory = cache.memory := by
  unfold dcacheFlush
  dsimp only
  split
  · next idx isBack present =>
      obtain ⟨valid, isTag⟩ := dcacheLinePresent_valid present
      have silent : cache.message
          (cfg.lineStart addr == cfg.lineStart addrDbg) = some cache := by
        have message := ready.message_tag idx
        rw [isTag] at message
        exact message
      have written := ready.toCoherent.writeBack valid
      rw [isTag] at written
      split
      · rw [silent]
        refine ⟨_, rfl, ?_⟩
        dsimp only
        rw [CacheConfig.lineStart, written]
        exact ⟨ready.toCoherent.setFlags idx _ false id, rfl⟩
      · exact ⟨cache, rfl, ready.toCoherent, rfl⟩
  · exact ⟨cache, rfl, ready.toCoherent, rfl⟩

end Lines

/-- The address of an access, and how many bytes it reaches. -/
def CacheOp.range : CacheOp → Option (Nat × Nat)
  | .write addr width _ => some (addr, width.bytes)
  | .readB addr => some (addr, 1)
  | .readW addr => some (addr, 2)
  | .readL addr => some (addr, 4)
  | .flush addr => some (addr, 1)
  | .flushAll => none
  | .invalidate addr => some (addr, 1)
  | .invalidateAll => none

def CacheOp.Below (cfg : CacheConfig) (op : CacheOp) : Prop :=
  ∀ range ∈ op.range, range.1 + range.2 ≤ cfg.ramSize

/-- The operation has messages that read the trace event. -/
def CacheOp.talks (policy : WritePolicy) : CacheOp → Bool
  | .write _ _ _ => policy = .back
  | .readB _ => true
  | .readW _ => true
  | .readL _ => true
  | .flush _ => policy = .back
  | .flushAll => false
  | .invalidate _ => false
  | .invalidateAll => false

/-- An access without messages, one that is traced, or one that is not exclusive
and stays away from the first line while no line has its tag. -/
def Quiet (cfg : CacheConfig) (cache : DataCache) (access : CacheAccess) :
    Prop :=
  access.op.talks cfg.policy = true → access.trId.isSome = true ∨
    access.excl = false ∧
      (∀ range ∈ access.op.range, cfg.lineBytes ≤ range.1) ∧
      ∀ idx, (cache.line idx).tag ≠ 0

/-- Every access of a run is made in a state where it is quiet. -/
def QuietRun (cfg : CacheConfig) (depth : Nat) : DataCache → List CacheAccess → Prop
  | _, [] => True
  | cache, access :: accesses =>
    Quiet cfg cache access ∧
      ∀ value later, cacheStep cfg depth cache access =
        some (value, later) → QuietRun cfg depth later accesses

section Runs

variable {cfg : CacheConfig} {cache : DataCache}

theorem Coherent.withCpu (coherent : Coherent cfg cache) (trId : Option Bool) (excl : Bool) :
    Coherent cfg (cache.withCpu trId excl) :=
  ⟨⟨coherent.inSet, coherent.unique⟩, coherent.current⟩

theorem Quiet.ready (quiet : Quiet cfg cache access) (coherent : Coherent cfg cache)
    (talks : access.op.talks cfg.policy = true) (isRange : access.op.range = some (addr, nb)) :
    Ready cfg (cache.withCpu access.trId access.excl) addr :=
  ⟨coherent.withCpu _ _, (quiet talks).imp_right fun silent =>
    ⟨silent.1, silent.2.1 (addr, nb) isRange, silent.2.2⟩⟩

theorem Width.isWidth (width : Width) : IsWidth width.bytes := by
  cases width
  · exact Or.inl rfl
  · exact Or.inr (Or.inl rfl)
  · exact Or.inr (Or.inr rfl)

/-- One access does what it does on a flat memory. -/
theorem cacheStep_flat (depth : Nat) (coherent : Coherent cfg cache)
    (quiet : Quiet cfg cache access) (below : access.op.Below cfg) :
    ∃ later, cacheStep cfg (depth + 4) cache access =
        some ((flatOp cache.memory access.op).1, later) ∧
      Coherent cfg later ∧
      later.memory = (flatOp cache.memory access.op).2 := by
  obtain ⟨op, trId, excl⟩ := access
  have same := coherent.withCpu trId excl
  unfold cacheStep
  cases op with
  | write addr width val =>
    cases isPolicy : cfg.policy with
    | through =>
      -- The write is the one of an instruction that is traced.
      have traced : Ready cfg (cache.withCpu (some true) excl) addr :=
        ⟨coherent.withCpu _ _, .inl rfl⟩
      obtain ⟨later, isLater, ready, written⟩ := dcacheWrite_writes depth val
        width.isWidth traced (Nat.le_refl addr) (below _ rfl)
      refine ⟨later.withCpu trId excl, ?_, ready.toCoherent.withCpu _ _, written⟩
      have sameWrite := dcacheWrite_through isPolicy trId excl (depth + 4)
        (cache.withCpu (some true) excl) addr width.bytes val
      rw [isLater] at sameWrite
      exact congrArg (Option.map _) sameWrite
    | back =>
      obtain ⟨later, isLater, ready, written⟩ := dcacheWrite_writes depth val
        width.isWidth (quiet.ready coherent (decide_eq_true isPolicy) rfl) (Nat.le_refl addr)
        (below _ rfl)
      exact ⟨later, congrArg (Option.map _) isLater, ready.toCoherent, written⟩
  | readB addr =>
    obtain ⟨later, isLater, ready, unchanged⟩ :=
      dcacheReadB_reads (quiet.ready coherent rfl rfl) (Nat.le_refl addr)
    exact ⟨later, congrArg (Option.map _) isLater, ready.toCoherent, unchanged⟩
  | readW addr =>
    obtain ⟨later, isLater, ready, unchanged⟩ :=
      dcacheReadW_reads (quiet.ready coherent rfl rfl) (Nat.le_refl addr)
    exact ⟨later, congrArg (Option.map _) isLater, ready.toCoherent, unchanged⟩
  | readL addr =>
    obtain ⟨later, isLater, ready, unchanged⟩ :=
      dcacheReadL_reads (quiet.ready coherent rfl rfl) (Nat.le_refl addr)
    exact ⟨later, congrArg (Option.map _) isLater, ready.toCoherent, unchanged⟩
  | flush addr =>
    cases isPolicy : cfg.policy with
    | through =>
      have unflushed : dcacheFlush cfg (cache.withCpu trId excl) addr =
          some (cache.withCpu trId excl) := by
        unfold dcacheFlush
        rw [isPolicy]
      exact ⟨_, congrArg (Option.map _) unflushed, same, rfl⟩
    | back =>
      obtain ⟨later, isLater, flushed⟩ :=
        (quiet.ready coherent (decide_eq_true isPolicy) rfl).flush addr
      exact ⟨later, congrArg (Option.map _) isLater, flushed⟩
  | flushAll => exact ⟨_, rfl, same.flushAll⟩
  | invalidate addr => exact ⟨_, rfl, same.invalidate addr⟩
  | invalidateAll => exact ⟨_, rfl, same.invalidateAll, rfl⟩

theorem initCaches_coherent (memory : Nat → BitVec 8) (random : Nat → Nat) :
    Coherent cfg (initCaches memory random) :=
  ⟨⟨nofun, nofun⟩, nofun⟩

theorem cacheRun_flat (depth : Nat) (coherent : Coherent cfg cache)
    (quiet : QuietRun cfg (depth + 4) cache accesses)
    (below : ∀ access ∈ accesses, access.op.Below cfg) :
    cacheRun cfg (depth + 4) cache accesses =
      some (flatRun cache.memory (accesses.map CacheAccess.op)) := by
  induction accesses generalizing cache with
  | nil => rfl
  | cons access accesses ih =>
    obtain ⟨later, isLater, isCoherent, memory⟩ := cacheStep_flat depth
      coherent quiet.1 (below access List.mem_cons_self)
    have rest := ih isCoherent (quiet.2 _ later isLater)
      fun other member => below other (List.mem_cons_of_mem _ member)
    rw [cacheRun, isLater, bind_some]
    dsimp only
    rw [rest, memory]
    rfl

end Runs

/-- The reads of every run from the start return what they return on a flat
memory, for any content, any replacements and any recursion that is deep
enough, as long as all accesses are quiet. -/
theorem dcache_transparent (cfg : CacheConfig) (memory : Nat → BitVec 8)
    (random : Nat → Nat) {depth : Nat} (enough : 4 ≤ depth) {accesses : List CacheAccess}
    (below : ∀ access ∈ accesses, access.op.Below cfg)
    (quiet : QuietRun cfg depth (initCaches memory random) accesses) :
    cacheRun cfg depth (initCaches memory random) accesses =
      some (flatRun memory (accesses.map CacheAccess.op)) := by
  obtain ⟨rest, rfl⟩ := Nat.exists_eq_add_of_le' enough
  exact cacheRun_flat rest (initCaches_coherent memory random) quiet below

/-- The configuration of `cfg.h`, with a small memory. -/
def shippedCache : CacheConfig where
  policy := .through
  lineBits := 5
  linesBits := 10
  assocBits := 0
  ramSize := 0x10000
  word := by decide
  divides := by decide

/-- A write to the first lines that is not traced, and a traced read. -/
theorem dcache_transparent_two_lines :
    cacheRun shippedCache 4 (initCaches (fun _ => 0) fun _ => 0)
        [⟨.write 0x1f .half 0x1234, none, true⟩, ⟨.readL 0x1e, some false, false⟩] =
      some (flatRun (fun _ => 0) [.write 0x1f .half 0x1234, .readL 0x1e]) := by
  refine dcache_transparent shippedCache (fun _ => 0) (fun _ => 0)
    (Nat.le_refl 4) ?_ ⟨nofun, fun _ _ _ => ⟨fun _ => Or.inl rfl, fun _ _ _ => trivial⟩⟩
  intro access member range isRange
  rcases List.mem_cons.mp member with rfl | member
  · cases isRange
    decide
  · cases List.mem_singleton.mp member
    cases isRange
    decide

/-- The first line is read and then replaced while nothing is traced: the
message about it reads the trace event that is not there. -/
theorem first_line_replaced_untraced :
    cacheRun shippedCache 4 (initCaches (fun _ => 0) fun _ => 0)
        [⟨.readB 0, none, false⟩, ⟨.readB 0x8000, none, false⟩] = none ∧
      flatRun (fun _ => 0) [.readB 0, .readB 0x8000] = [some 0, some 0] :=
  ⟨rfl, rfl⟩

end Reverse.Rabbits
